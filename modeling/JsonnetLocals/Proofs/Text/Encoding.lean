/-
  JsonnetLocals.Proofs.Text.Encoding — which texts have bytes, and the order of texts.

  A text has bytes when it is a text of characters (`Text.encode_eq_ok_iff`), and joining texts joins
  their bytes. `Text.precedes` is the lexicographic order of the code points
  (`Text.codesPrecede_iff`), so sorting without duplicates gives a strictly increasing list
  (`Text.mergeSort_increasing`).
-/

import JsonnetLocals.Proofs.Text.Utf8
import JsonnetLocals.Text.Encoding
import Mathlib.Data.List.Basic
import Mathlib.Tactic.Common

namespace JsonnetLocals

namespace Text

theorem char?_eq_some_iff {n : Nat} {c : Char} : char? n = some c ↔ n = c.toNat := by
  constructor
  · intro h
    simp only [char?, Option.ite_none_right_eq_some, Option.some.injEq] at h
    obtain ⟨hv, rfl⟩ := h
    exact (Utf8.toNat_ofNat_of_valid hv).symm
  · rintro rfl
    exact char?_toNat c

theorem mapM_char?_eq_some_iff {codes : List Nat} {cs : List Char} :
    codes.mapM char? = some cs ↔ codes = cs.map Char.toNat := by
  induction codes generalizing cs with
  | nil => cases cs <;> simp
  | cons n codes ih =>
    cases cs with
    | nil => simp [List.mapM_cons, Option.bind_eq_some_iff]
    | cons c cs => simp [List.mapM_cons, Option.bind_eq_some_iff, char?_eq_some_iff, ih]

/-- The texts with bytes are the texts of characters. -/
theorem encode_eq_ok_iff {t : Text} {bs : Bytes} :
    t.encode = .ok bs ↔ ∃ cs, t = ofChars cs ∧ bs = Utf8.encodeChars cs := by
  rcases t with ⟨codes⟩
  simp only [encode, string?, ofChars, mk.injEq]
  cases h : codes.mapM char? with
  | none =>
    simp only [Option.map_none, reduceCtorEq, false_iff, not_exists, not_and]
    rintro cs rfl
    rw [mapM_char?_eq_some_iff.mpr rfl] at h
    cases h
  | some cs =>
    obtain rfl := mapM_char?_eq_some_iff.mp h
    simp only [Option.map_some, Utf8.encode, String.toList_ofList, Except.ok.injEq]
    constructor
    · rintro rfl
      exact ⟨cs, rfl, rfl⟩
    · rintro ⟨ds, hd, rfl⟩
      rw [List.map_injective_iff.mpr (fun _ _ => Char.toNat_inj.mp) hd]

theorem ofChars_injective {cs ds : List Char} (h : ofChars cs = ofChars ds) : cs = ds :=
  List.map_injective_iff.mpr (fun _ _ => Char.toNat_inj.mp) (Text.mk.inj h)

theorem encode_ofChars (cs : List Char) : (ofChars cs).encode = .ok (Utf8.encodeChars cs) :=
  encode_eq_ok_iff.mpr ⟨cs, rfl, rfl⟩

theorem encode_append {a b : Text} {x y : Bytes} (ha : a.encode = .ok x) (hb : b.encode = .ok y) :
    (a ++ b).encode = .ok (x ++ y) := by
  obtain ⟨cs, rfl, rfl⟩ := encode_eq_ok_iff.mp ha
  obtain ⟨ds, rfl, rfl⟩ := encode_eq_ok_iff.mp hb
  rw [← ofChars_append, encode_ofChars, Utf8.encodeChars_append]

/-- A joined text has bytes when its parts have. -/
theorem encode_append_eq_ok_iff {a b : Text} {z : Bytes} :
    (a ++ b).encode = .ok z ↔ ∃ x y, a.encode = .ok x ∧ b.encode = .ok y ∧ z = x ++ y := by
  constructor
  · intro h
    obtain ⟨cs, heq, rfl⟩ := encode_eq_ok_iff.mp h
    obtain ⟨xs, ys, rfl, hxs, hys⟩ := List.map_eq_append_iff.mp (congrArg codes heq).symm
    exact ⟨_, _, encode_eq_ok_iff.mpr ⟨xs, congrArg mk hxs.symm, rfl⟩, encode_eq_ok_iff.mpr ⟨ys, congrArg mk hys.symm, rfl⟩,
      Utf8.encodeChars_append xs ys⟩
  · rintro ⟨x, y, ha, hb, rfl⟩
    exact encode_append ha hb

/-! ## Order -/

/-- The order of the code points, the first difference deciding. -/
def Before (a b : Text) : Prop := List.Lex (· < ·) a.codes b.codes

theorem codesPrecede_iff {xs ys : List Nat} : codesPrecede xs ys = true ↔ xs = ys ∨ List.Lex (· < ·) xs ys := by
  induction xs generalizing ys with
  | nil => cases ys <;> simp [codesPrecede]
  | cons x xs ih =>
    cases ys with
    | nil => simp [codesPrecede]
    | cons y ys =>
      simp only [codesPrecede, Bool.or_eq_true, decide_eq_true_eq, Bool.and_eq_true, beq_iff_eq, ih, List.cons.injEq,
        List.cons_lex_cons_iff]
      tauto

theorem precedes_trans {a b c : Text} (h1 : a.precedes b = true) (h2 : b.precedes c = true) : a.precedes c = true := by
  have key (xs ys zs : List Nat) (h1 : codesPrecede xs ys = true) (h2 : codesPrecede ys zs = true) :
      codesPrecede xs zs = true := by
    induction xs generalizing ys zs with
    | nil => rfl
    | cons x xs ih =>
      match ys, zs with
      | [], _ => cases h1
      | _ :: _, [] => cases h2
      | y :: ys, z :: zs =>
        simp only [codesPrecede, Bool.or_eq_true, decide_eq_true_eq, Bool.and_eq_true, beq_iff_eq] at h1 h2 ⊢
        rcases h1 with h1 | ⟨rfl, h1⟩
        · exact Or.inl (by omega)
        · rcases h2 with h2 | ⟨rfl, h2⟩
          · exact Or.inl h2
          · exact Or.inr ⟨rfl, ih ys zs h1 h2⟩
  exact key _ _ _ h1 h2

theorem precedes_total (a b : Text) : (a.precedes b || b.precedes a) = true := by
  have key (xs ys : List Nat) : (codesPrecede xs ys || codesPrecede ys xs) = true := by
    induction xs generalizing ys with
    | nil => rfl
    | cons x xs ih =>
      cases ys with
      | nil => rfl
      | cons y ys =>
        have := ih ys
        simp only [codesPrecede, Bool.or_eq_true, decide_eq_true_eq, Bool.and_eq_true, beq_iff_eq] at this ⊢
        rcases Nat.lt_trichotomy x y with h | rfl | h
        · exact Or.inl (Or.inl h)
        · exact this.imp (fun h => Or.inr ⟨rfl, h⟩) fun h => Or.inr ⟨rfl, h⟩
        · exact Or.inr (Or.inl h)
  exact key _ _

/-- Texts without duplicates, sorted. -/
theorem mergeSort_increasing {ts : List Text} (h : ts.Nodup) : (ts.mergeSort precedes).Pairwise Before := by
  have hsort : (ts.mergeSort precedes).Pairwise fun a b => precedes a b = true :=
    List.pairwise_mergeSort (fun a b c => precedes_trans (a := a) (b := b) (c := c)) precedes_total ts
  have hnodup : (ts.mergeSort precedes).Nodup := (List.mergeSort_perm ts _).nodup_iff.mpr h
  refine (hsort.and hnodup).imp ?_
  intro a b h
  rcases codesPrecede_iff.mp h.1 with e | hlex
  · rcases a with ⟨xs⟩
    rcases b with ⟨ys⟩
    exact absurd (congrArg Text.mk e) h.2
  · exact hlex

end Text

end JsonnetLocals
