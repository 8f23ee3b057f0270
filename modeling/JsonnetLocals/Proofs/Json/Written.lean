/-
  JsonnetLocals.Proofs.Json.Written — what is written reads back.

  A written text holds ASCII characters only: each code point is itself, a short escape, or the escapes of
  its 16-bit units. Reading joins a high unit and a low one that follow each other, wherever they come
  from, so a text reads back with the halves of a character joined (`read_writeText`), which is the text
  itself exactly when it holds no character in halves (`joinHalves_eq_self_iff`). A text of characters holds none
  (`Text.whole_ofChars`).

  An object of plain fields, as settings are, reads back field by field (`read_writeFields`), because no two of
  its keys are equal.
-/

import JsonnetLocals.Json.Reader
import JsonnetLocals.Proofs.Syntax.Strings
import Mathlib.Data.List.Chain

namespace JsonnetLocals

/-! ## Characters in halves -/

def joinUnits (high low : Nat) : Nat := 0x10000 + (high - 0xd800) * 0x400 + (low - 0xdc00)

/-- The code points with the halves of each character joined. -/
def joinHalves : List Nat → List Nat
  | a :: b :: rest =>
    if Utf16.isHigh a ∧ Utf16.isLow b then joinUnits a b :: joinHalves rest else a :: joinHalves (b :: rest)
  | codes => codes

namespace Text

/-- No two code points in a row are the halves of a character. -/
def Whole (t : Text) : Prop := t.codes.IsChain fun a b => ¬ (Utf16.isHigh a ∧ Utf16.isLow b)

def InRange (t : Text) : Prop := ∀ n ∈ t.codes, n < 0x110000

def joined (t : Text) : Text := ⟨joinHalves t.codes⟩

end Text

theorem Utf16.isHigh_iff {u : Nat} : isHigh u = true ↔ 0xd800 ≤ u ∧ u < 0xdc00 := by
  simp [isHigh]

theorem Utf16.isLow_iff {u : Nat} : isLow u = true ↔ 0xdc00 ≤ u ∧ u < 0xe000 := by
  simp [isLow]

theorem length_joinHalves_le (codes : List Nat) : (joinHalves codes).length ≤ codes.length := by
  fun_induction joinHalves codes with
  | case1 a b rest h ih =>
    simp only [List.length_cons]
    omega
  | case2 a b rest h ih =>
    simp only [List.length_cons] at ih ⊢
    omega
  | case3 codes => exact Nat.le_refl _

theorem joinHalves_eq_self_iff {codes : List Nat} :
    joinHalves codes = codes ↔ codes.IsChain fun a b => ¬ (Utf16.isHigh a ∧ Utf16.isLow b) := by
  fun_induction joinHalves codes with
  | case1 a b rest h ih =>
    refine iff_of_false ?_ ?_
    · intro heq
      have hlength := congrArg List.length heq
      have hle := length_joinHalves_le rest
      simp only [List.length_cons] at hlength
      omega
    · intro hchain
      exact (List.isChain_cons_cons.mp hchain).1 h
  | case2 a b rest h ih =>
    rw [List.isChain_cons_cons, and_iff_right h, ← ih]
    simp
  | case3 codes h =>
    refine iff_of_true rfl ?_
    match codes with
    | [] => exact List.IsChain.nil
    | [a] => exact List.IsChain.singleton a
    | a :: b :: rest => exact absurd rfl (h a b rest)

namespace Text

theorem joined_eq_self_iff {t : Text} : t.joined = t ↔ t.Whole := by
  rw [Whole, ← joinHalves_eq_self_iff]
  constructor
  · exact congrArg codes
  · exact fun h => congrArg mk h

theorem whole_ofChars (cs : List Char) : (ofChars cs).Whole := by
  refine (List.pairwise_of_forall_mem_list ?_).isChain
  intro a ha b _ h
  obtain ⟨c, -, rfl⟩ := List.mem_map.mp ha
  have hhigh := Utf16.isHigh_iff.mp h.1
  have hvalid : c.toNat < 0xd800 ∨ 0xdfff < c.toNat ∧ c.toNat < 0x110000 := c.valid
  omega

theorem inRange_ofChars (cs : List Char) : (ofChars cs).InRange := by
  intro n hn
  obtain ⟨c, -, rfl⟩ := List.mem_map.mp hn
  have hvalid : c.toNat < 0xd800 ∨ 0xdfff < c.toNat ∧ c.toNat < 0x110000 := c.valid
  omega

end Text

/-- A new key comes last. -/
theorem Table.put_of_notMem {κ α : Type} [BEq κ] [LawfulBEq κ] {k : κ} {v : α} {t : List (κ × α)} (h : k ∉ t.map Prod.fst) :
    put k v t = t ++ [(k, v)] := by
  induction t with
  | nil => rfl
  | cons x t ih =>
    obtain ⟨a, b⟩ := x
    rw [List.map_cons, List.mem_cons, not_or] at h
    have hne : (a == k) = false := by
      rw [beq_eq_false_iff_ne]
      exact Ne.symm h.1
    rw [put, hne, ih h.2]
    rfl

/-! ## Units -/

theorem Utf8.unitDigits_hexDigits {u : Nat} (h : u < 0x10000) : UnitDigits u (hexDigits 4 u).toList := by
  unfold UnitDigits
  rw [toList_hexDigits_four h]
  have hlt (n : Nat) : n % 16 < 16 := Nat.mod_lt n (by decide)
  simp [hexValue_digitChar (hlt _), hexValue_digitChar (show u / 4096 < 16 by omega)]

namespace Json

def unitEscape (u : Nat) : List Char := '\\' :: 'u' :: (Utf8.hexDigits 4 u).toList

/-- A code point is written as a short escape, as itself, or as the escapes of its units. -/
theorem toList_writeCode (n : Nat) :
    (∃ e, (writeCode n).toList = ['\\', e] ∧ e ≠ 'u' ∧ escapeCode? e = some n) ∨
      (∃ c : Char, (writeCode n).toList = [c] ∧ c.toNat = n ∧ 32 ≤ n ∧ c ≠ '"' ∧ c ≠ '\\') ∨
        (writeCode n).toList = (Utf16.unitsOf n).flatMap unitEscape := by
  unfold writeCode
  by_cases h34 : n = 34
  · subst h34
    exact .inl ⟨'"', by decide⟩
  by_cases h92 : n = 92
  · subst h92
    exact .inl ⟨'\\', by decide⟩
  by_cases h10 : n = 10
  · subst h10
    exact .inl ⟨'n', by decide⟩
  by_cases h13 : n = 13
  · subst h13
    exact .inl ⟨'r', by decide⟩
  by_cases h9 : n = 9
  · subst h9
    exact .inl ⟨'t', by decide⟩
  by_cases h8 : n = 8
  · subst h8
    exact .inl ⟨'b', by decide⟩
  by_cases h12 : n = 12
  · subst h12
    exact .inl ⟨'f', by decide⟩
  rw [if_neg h34, if_neg h92, if_neg h10, if_neg h13, if_neg h9, if_neg h8, if_neg h12]
  by_cases hplain : 32 ≤ n ∧ n < 127
  · rw [if_pos hplain]
    have hnat : (Char.ofNat n).toNat = n := Utf8.toNat_ofNat_of_valid (.inl (by omega))
    refine .inr (.inl ⟨Char.ofNat n, String.toList_singleton _, hnat, hplain.1, ?_, ?_⟩)
    · intro h
      exact h34 (hnat.symm.trans (congrArg Char.toNat h))
    · intro h
      exact h92 (hnat.symm.trans (congrArg Char.toNat h))
  · rw [if_neg hplain]
    refine .inr (.inr ?_)
    have hunit (u : Nat) : ("\\u" ++ Utf8.hexDigits 4 u).toList = unitEscape u := by
      rw [String.toList_append]
      rfl
    simp only [String.toList_join, List.flatMap_map, hunit]

/-! ## Reading texts -/

section Read

variable {start i u v n : Nat} {read : List Nat} {tail : List Char}

theorem length_unitEscape_append (hu : u < 0x10000) (ht : tail ≠ []) : 5 ≤ ((Utf8.hexDigits 4 u).toList ++ tail).length := by
  have hpos := List.length_pos_iff.mpr ht
  rw [List.length_append, (Utf8.unitDigits_hexDigits hu).length_eq]
  omega

theorem pairedUnit_unitEscape (hu : u < 0x10000) (ht : tail ≠ []) : pairedUnit (unitEscape u ++ tail) = some (some u) := by
  rw [unitEscape, List.cons_append, List.cons_append, pairedUnit, if_pos (length_unitEscape_append hu ht),
    (Utf8.unitDigits_hexDigits hu).hex4_eq]

/-- A unit that has no partner behind it is a code point of its own. -/
theorem readTextFrom_unit (hu : u < 0x10000) (ht : tail ≠ [])
    (halone : Utf16.isHigh u → ∀ m, pairedUnit tail = some m → ∃ v, m = some v ∧ ¬ Utf16.isLow v) :
    readTextFrom start read i (unitEscape u ++ tail) = readTextFrom start (u :: read) (i + 6) tail := by
  have hdigits := Utf8.unitDigits_hexDigits hu
  have hdrop : ((Utf8.hexDigits 4 u).toList ++ tail).drop 4 = tail := List.drop_left' hdigits.length_eq
  have hlength : ¬ ((Utf8.hexDigits 4 u).toList ++ tail).length < 5 := Nat.not_lt.mpr (length_unitEscape_append hu ht)
  unfold unitEscape
  rw [List.cons_append, List.cons_append, readTextFrom, if_neg hlength, hdigits.hex4_eq]
  dsimp only
  rw [hdrop]
  by_cases hhigh : Utf16.isHigh u = true
  · rw [if_pos hhigh]
    cases hm : pairedUnit tail with
    | none => rfl
    | some m =>
      obtain ⟨v, rfl, hv⟩ := halone hhigh m hm
      dsimp only
      rw [if_neg hv]
  · rw [if_neg hhigh]

/-- A high unit with a low one behind it are one code point. -/
theorem readTextFrom_pair (hu : Utf16.isHigh u) (hv : Utf16.isLow v) (ht : tail ≠ []) :
    readTextFrom start read i (unitEscape u ++ (unitEscape v ++ tail)) =
      readTextFrom start (joinUnits u v :: read) (i + 12) tail := by
  have hu' : u < 0x10000 := by have := Utf16.isHigh_iff.mp hu; omega
  have hv' : v < 0x10000 := by have := Utf16.isLow_iff.mp hv; omega
  have hdigits := Utf8.unitDigits_hexDigits hu'
  have hnext : unitEscape v ++ tail ≠ [] := List.cons_ne_nil _ _
  have hdrop : ((Utf8.hexDigits 4 u).toList ++ (unitEscape v ++ tail)).drop 4 = unitEscape v ++ tail :=
    List.drop_left' hdigits.length_eq
  have hdrop' : ((Utf8.hexDigits 4 u).toList ++ (unitEscape v ++ tail)).drop 10 = tail := by
    rw [← List.append_assoc]
    refine List.drop_left' ?_
    rw [List.length_append, hdigits.length_eq, unitEscape, List.length_cons, List.length_cons,
      (Utf8.unitDigits_hexDigits hv').length_eq]
  have hlength : ¬ ((Utf8.hexDigits 4 u).toList ++ (unitEscape v ++ tail)).length < 5 :=
    Nat.not_lt.mpr (length_unitEscape_append hu' hnext)
  rw [unitEscape, List.cons_append, List.cons_append, readTextFrom, if_neg hlength, hdigits.hex4_eq]
  dsimp only
  rw [if_pos hu, hdrop, pairedUnit_unitEscape hv' ht]
  dsimp only
  rw [if_pos hv, hdrop']
  rfl

/-- The units of a character beyond the basic plane are a pair, and the pair is the character. -/
theorem unitsOf_pair (h1 : 0x10000 ≤ n) (h2 : n < 0x110000) :
    ∃ a b, Utf16.unitsOf n = [a, b] ∧ Utf16.isHigh a ∧ Utf16.isLow b ∧ joinUnits a b = n := by
  refine ⟨0xd800 + (n - 0x10000) / 0x400, 0xdc00 + (n - 0x10000) % 0x400, ?_, ?_, ?_, ?_⟩
  · rw [Utf16.unitsOf, if_neg (by omega)]
  · rw [Utf16.isHigh_iff]
    omega
  · rw [Utf16.isLow_iff]
    omega
  · unfold joinUnits
    omega

theorem unitsOf_of_lt (h : n < 0x10000) : Utf16.unitsOf n = [n] := if_pos h

/-- What stands behind a code point begins with no low half. -/
def NoLowHalf (tail : List Char) : Prop := ∀ m, pairedUnit tail = some m → ∃ v, m = some v ∧ ¬ Utf16.isLow v

/-- A written code point reads back, unless it is a high half with a low half behind it. -/
theorem readTextFrom_writeCode (hn : n < 0x110000) (ht : tail ≠ []) (halone : Utf16.isHigh n → NoLowHalf tail)
    (start i : Nat) (read : List Nat) :
    ∃ j, readTextFrom start read i ((writeCode n).toList ++ tail) = readTextFrom start (n :: read) j tail := by
  rcases toList_writeCode n with ⟨e, htext, he, hcode⟩ | ⟨c, htext, rfl, hge, hquote, hslash⟩ | htext
  · refine ⟨i + 2, ?_⟩
    rw [htext, List.cons_append, List.cons_append, List.nil_append, readTextFrom, hcode]
    exact fun h => absurd h he
  · refine ⟨i + 1, ?_⟩
    rw [htext, List.cons_append, List.nil_append, readTextFrom, if_neg (Nat.not_lt.mpr hge)]
    · exact hquote
    · exact fun _ h => absurd h hslash
    · exact fun h => absurd h hslash
    · exact fun _ _ h => absurd h hslash
  · rw [htext]
    by_cases hlt : n < 0x10000
    · rw [unitsOf_of_lt hlt, List.flatMap_singleton]
      exact ⟨i + 6, readTextFrom_unit hlt ht halone⟩
    · obtain ⟨a, b, hunits, ha, hb, hjoin⟩ := unitsOf_pair (by omega) hn
      rw [hunits, List.flatMap_cons, List.flatMap_singleton, List.append_assoc, readTextFrom_pair ha hb ht, hjoin]
      exact ⟨i + 12, rfl⟩

theorem noLowHalf_quote (rest : List Char) : NoLowHalf ('"' :: rest) := by
  intro m h
  cases h

/-- What is written of a code point begins with its first unit, if with a unit at all. -/
theorem noLowHalf_writeCode (hn : n < 0x110000) (hlow : ¬ Utf16.isLow n) (ht : tail ≠ []) :
    NoLowHalf ((writeCode n).toList ++ tail) := by
  rcases toList_writeCode n with ⟨e, htext, he, -⟩ | ⟨c, htext, -, -, -, hslash⟩ | htext
  · intro m h
    rw [htext, List.cons_append, List.cons_append, pairedUnit] at h
    · cases h
    · intro rest heq
      exact he (List.cons.inj (List.cons.inj heq).2).1
  · intro m h
    rw [htext, List.cons_append, pairedUnit] at h
    · cases h
    · intro rest heq
      exact hslash (List.cons.inj heq).1
  · rw [htext]
    by_cases hlt : n < 0x10000
    · intro m h
      rw [unitsOf_of_lt hlt, List.flatMap_singleton, pairedUnit_unitEscape hlt ht] at h
      exact ⟨n, (Option.some.inj h).symm, hlow⟩
    · obtain ⟨a, b, hunits, ha, -, -⟩ := unitsOf_pair (by omega) hn
      have ha' := Utf16.isHigh_iff.mp ha
      intro m h
      rw [hunits, List.flatMap_cons, List.append_assoc, pairedUnit_unitEscape (by omega) (by simp [ht])] at h
      refine ⟨a, (Option.some.inj h).symm, ?_⟩
      rw [Utf16.isLow_iff]
      omega

theorem lt_of_escapeCode? {e : Char} (h : escapeCode? e = some n) : n < 128 := by
  unfold escapeCode? at h
  split at h
  · rename_i he
    obtain rfl := Option.some.inj h
    rcases he with rfl | rfl | rfl <;> decide
  · repeat' split at h
    all_goals cases h
    all_goals decide

/-- A half is written as the escape of its unit. -/
theorem toList_writeCode_half (h1 : 0xd800 ≤ n) (h2 : n < 0xe000) : (writeCode n).toList = unitEscape n := by
  rcases toList_writeCode n with ⟨e, -, -, hcode⟩ | ⟨c, -, rfl, -⟩ | htext
  · have hsmall := lt_of_escapeCode? hcode
    omega
  · have hvalid : c.toNat < 0xd800 ∨ 0xdfff < c.toNat ∧ c.toNat < 0x110000 := c.valid
    omega
  · rw [htext, unitsOf_of_lt (by omega), List.flatMap_singleton]

def writtenCodes (codes : List Nat) : List Char := codes.flatMap fun n => (writeCode n).toList

theorem writtenCodes_cons (n : Nat) (codes : List Nat) :
    writtenCodes (n :: codes) = (writeCode n).toList ++ writtenCodes codes := rfl

/-- A written text reads back with the halves of its characters joined. -/
theorem readTextFrom_writtenCodes {codes : List Nat} (hcodes : ∀ n ∈ codes, n < 0x110000) (start i : Nat) (read : List Nat)
    (rest : List Char) :
    ∃ j, readTextFrom start read i (writtenCodes codes ++ '"' :: rest) =
      .ok ⟨⟨read.reverse ++ joinHalves codes⟩, j, rest⟩ := by
  fun_induction joinHalves codes generalizing i read with
  | case1 a b codes h ih =>
    rw [List.forall_mem_cons, List.forall_mem_cons] at hcodes
    have ha := Utf16.isHigh_iff.mp h.1
    have hb := Utf16.isLow_iff.mp h.2
    have hne : writtenCodes codes ++ '"' :: rest ≠ [] := by simp
    obtain ⟨j, hj⟩ := ih hcodes.2.2 (i + 12) (joinUnits a b :: read)
    refine ⟨j, ?_⟩
    rw [writtenCodes_cons, writtenCodes_cons, toList_writeCode_half ha.1 (by omega), toList_writeCode_half (by omega) hb.2,
      List.append_assoc, List.append_assoc, readTextFrom_pair h.1 h.2 hne]
    simpa using hj
  | case2 a b codes h ih =>
    rw [List.forall_mem_cons] at hcodes
    have hb : b < 0x110000 := hcodes.2 b List.mem_cons_self
    have hne : writtenCodes codes ++ '"' :: rest ≠ [] := by simp
    have hne' : writtenCodes (b :: codes) ++ '"' :: rest ≠ [] := by simp
    have halone : Utf16.isHigh a → NoLowHalf (writtenCodes (b :: codes) ++ '"' :: rest) := by
      intro ha
      rw [writtenCodes_cons, List.append_assoc]
      exact noLowHalf_writeCode hb (fun hlow => h ⟨ha, hlow⟩) hne
    obtain ⟨j, hj⟩ := readTextFrom_writeCode hcodes.1 hne' halone start i read
    obtain ⟨k, hk⟩ := ih hcodes.2 j (a :: read)
    refine ⟨k, ?_⟩
    rw [writtenCodes_cons, List.append_assoc, hj]
    simpa using hk
  | case3 codes h =>
    match codes with
    | [] => exact ⟨i + 1, by simp [writtenCodes, readTextFrom]⟩
    | [a] =>
      obtain ⟨j, hj⟩ := readTextFrom_writeCode (hcodes a List.mem_cons_self) (List.cons_ne_nil '"' rest)
        (fun _ => noLowHalf_quote rest) start i read
      refine ⟨j + 1, ?_⟩
      rw [writtenCodes, List.flatMap_singleton, hj, readTextFrom, List.reverse_cons]
    | a :: b :: codes => exact absurd rfl (h a b codes)

/-- A text without escapes reads as it stands. -/
theorem readTextFrom_plain (cs : List Char) (h : cs.all (fun c => 32 ≤ c.toNat && c != '"' && c != '\\') = true)
    (start i : Nat) (read : List Nat) (rest : List Char) :
    readTextFrom start read i (cs ++ '"' :: rest) =
      .ok ⟨⟨read.reverse ++ cs.map Char.toNat⟩, i + cs.length + 1, rest⟩ := by
  induction cs generalizing i read with
  | nil => simp [readTextFrom]
  | cons c cs ih =>
    simp only [List.all_cons, Bool.and_eq_true, decide_eq_true_eq, bne_iff_ne] at h
    obtain ⟨⟨⟨hc, hquote⟩, hslash⟩, hcs⟩ := h
    rw [List.cons_append, readTextFrom, if_neg (by omega), ih hcs]
    · simp [Nat.add_assoc, Nat.add_comm 1]
    · exact hquote
    all_goals simp_all

theorem toList_writeText (t : Text) : (writeText t).toList = '"' :: writtenCodes t.codes ++ ['"'] := by
  rw [writeText, String.toList_append, String.toList_append, String.toList_join, List.flatMap_map]
  rfl

end Read

/-! ## Plain values -/

/-- A value without parts that is no number. -/
def Plain : Json → Prop
  | null | bool _ => True
  | str s => s.InRange
  | _ => False

def joined : Json → Json
  | str s => str s.joined
  | v => v

/-- A plain value reads back. -/
theorem readValue_writeAt {v : Json} (hv : v.Plain) (fuel i depth : Nat) (rest : List Char) :
    ∃ j, readValue (fuel + 1) i ((writeAt depth v).toList ++ rest) = .ok ⟨v.joined, j, rest⟩ := by
  cases v with
  | null =>
    rw [writeAt]
    exact ⟨i + 4, rfl⟩
  | bool b =>
    cases b with
    | true =>
      rw [writeAt]
      exact ⟨i + 4, rfl⟩
    | false =>
      rw [writeAt]
      exact ⟨i + 5, rfl⟩
  | str s =>
    obtain ⟨j, hj⟩ := readTextFrom_writtenCodes hv i (i + 1) [] rest
    refine ⟨j, ?_⟩
    rw [writeAt, toList_writeText, List.cons_append, List.cons_append, readValue, List.append_assoc, List.singleton_append, hj]
    rfl
  | _ => cases hv

/-! ## Plain objects -/

/-- Layout is skipped up to what follows it. -/
theorem skip_append (layout : List Char) {rest : List Char} {c : Char} (hl : layout.all isLayout = true)
    (hc : isLayout c = false) (i : Nat) :
    skip i (layout ++ c :: rest) = (i + layout.length, c :: rest) := by
  have htake : (layout ++ c :: rest).takeWhile isLayout = layout := by
    rw [List.takeWhile_append_of_pos (List.all_eq_true.mp hl), List.takeWhile_cons_of_neg (by simp [hc]), List.append_nil]
  have hdrop : (layout ++ c :: rest).dropWhile isLayout = c :: rest := by
    rw [List.dropWhile_append_of_pos (List.all_eq_true.mp hl), List.dropWhile_cons_of_neg (by simp [hc])]
  rw [skip, htake, hdrop]

theorem skip_cons {c : Char} (hc : isLayout c = false) (i : Nat) (rest : List Char) : skip i (c :: rest) = (i, c :: rest) :=
  skip_append [] rfl hc i

theorem toList_lineAt (depth : Nat) : (lineAt depth).toList = '\n' :: List.replicate (2 * depth) ' ' := by
  simp [lineAt]

theorem isLayout_lineAt (depth : Nat) : (lineAt depth).toList.all isLayout = true := by
  rw [toList_lineAt, List.all_cons, List.all_replicate]
  simp [isLayout]

/-- A written value begins with no layout. -/
theorem exists_writeAt_eq_cons {v : Json} (hv : v.Plain) (depth : Nat) :
    ∃ c cs, (writeAt depth v).toList = c :: cs ∧ isLayout c = false := by
  cases v with
  | null => exact ⟨'n', "ull".toList, by rw [writeAt]; rfl, rfl⟩
  | bool b =>
    cases b with
    | true => exact ⟨'t', "rue".toList, by rw [writeAt]; rfl, rfl⟩
    | false => exact ⟨'f', "alse".toList, by rw [writeAt]; rfl, rfl⟩
  | str s => exact ⟨'"', writtenCodes s.codes ++ ['"'], by rw [writeAt, toList_writeText]; rfl, rfl⟩
  | _ => cases hv

def fieldText (depth : Nat) (k : Text) (v : Json) : List Char :=
  (writeText k).toList ++ ':' :: ' ' :: (writeAt depth v).toList

theorem toList_writeFields_cons (depth : Nat) (first : Bool) (k : Text) (v : Json) (fields : List (Text × Json)) :
    (writeFields depth first ((k, v) :: fields)).toList =
      (if first then [] else [',']) ++ ((lineAt depth).toList ++ (fieldText depth k v ++ (writeFields depth false fields).toList)) := by
  rw [writeFields, fieldText]
  cases first <;> simp

/-- Fields with plain values and keys that read back, no two of them equal. -/
structure PlainFields (fields : List (Text × Json)) : Prop where
  keys : ∀ x ∈ fields, x.1.InRange ∧ x.1.Whole
  values : ∀ x ∈ fields, x.2.Plain
  nodup : (fields.map Prod.fst).Nodup

theorem PlainFields.tail {x : Text × Json} {fields : List (Text × Json)} (h : PlainFields (x :: fields)) : PlainFields fields :=
  ⟨fun y hy => h.keys y (List.mem_cons_of_mem x hy), fun y hy => h.values y (List.mem_cons_of_mem x hy),
    (List.nodup_cons.mp h.nodup).2⟩

def joinedFields (fields : List (Text × Json)) : List (Text × Json) := fields.map fun x => (x.1, x.2.joined)

/-- A field is read up to what stands behind it: a key, a colon and a value. -/
theorem readFields_of_ok {fuel i j : Nat} {read : List (Text × Json)} {rest behind : List Char} {key : Found Text}
    {f : Found Json} (hkey : readTextFrom i [] (i + 1) rest = .ok key) (hcolon : skip key.index key.rest = (j, ':' :: behind))
    (hvalue : readValue fuel (skip (j + 1) behind).1 (skip (j + 1) behind).2 = .ok f) :
    readFields (fuel + 1) read i ('"' :: rest) =
      match (skip f.index f.rest).2 with
      | '\x7d' :: tail => .ok ⟨.obj (Table.put key.value f.value read), (skip f.index f.rest).1 + 1, tail⟩
      | ',' :: tail =>
        readFields fuel (Table.put key.value f.value read) (skip ((skip f.index f.rest).1 + 1) tail).1
          (skip ((skip f.index f.rest).1 + 1) tail).2
      | _ => .error ⟨.expectingComma, (skip f.index f.rest).1⟩ := by
  rw [readFields, hkey]
  simp only [hcolon]
  generalize readValue fuel (skip (j + 1) behind).1 (skip (j + 1) behind).2 = value at hvalue ⊢
  subst hvalue
  rfl

/-- One field reads back up to what stands behind it. -/
theorem readFields_fieldText {k : Text} {v : Json} (hk : k.InRange ∧ k.Whole) (hv : v.Plain) (fuel i depth : Nat)
    (read : List (Text × Json)) (rest : List Char) :
    ∃ j, readFields (fuel + 2) read i (fieldText depth k v ++ rest) =
      match (skip j rest).2 with
      | '\x7d' :: tail => .ok ⟨.obj (Table.put k v.joined read), (skip j rest).1 + 1, tail⟩
      | ',' :: tail =>
        readFields (fuel + 1) (Table.put k v.joined read) (skip ((skip j rest).1 + 1) tail).1 (skip ((skip j rest).1 + 1) tail).2
      | _ => .error ⟨.expectingComma, (skip j rest).1⟩ := by
  obtain ⟨c, cs, hvalue, hc⟩ := exists_writeAt_eq_cons hv depth
  obtain ⟨j, hj⟩ := readTextFrom_writtenCodes hk.1 i (i + 1) [] (':' :: ' ' :: (writeAt depth v).toList ++ rest)
  have hkey : (⟨[].reverse ++ joinHalves k.codes⟩ : Text) = k := by
    rw [List.reverse_nil, List.nil_append, joinHalves_eq_self_iff.mpr hk.2]
  have hspace : skip (j + 1) (' ' :: (c :: cs ++ rest)) = (j + 1 + 1, c :: cs ++ rest) :=
    skip_append [' '] rfl hc (j + 1)
  obtain ⟨m, hm⟩ := readValue_writeAt hv fuel (j + 1 + 1) depth rest
  refine ⟨m, ?_⟩
  rw [fieldText, toList_writeText]
  rw [hvalue] at hj hm ⊢
  simp only [List.cons_append, List.append_assoc, List.nil_append] at hj hm hspace ⊢
  rw [readFields_of_ok hj (skip_cons rfl _ _) (by rw [hspace]; exact hm), hkey]

/-- The fields of an object read back behind the ones before them. -/
theorem readFields_writeFields {fields : List (Text × Json)} {k : Text} {v : Json} (h : PlainFields ((k, v) :: fields))
    {read : List (Text × Json)} (hread : ∀ x ∈ (k, v) :: fields, x.1 ∉ read.map Prod.fst) {fuel : Nat}
    (hfuel : fields.length + 2 ≤ fuel) (i depth outer : Nat) (rest : List Char) :
    ∃ j, readFields fuel read i
        (fieldText depth k v ++ ((writeFields depth false fields).toList ++ ((lineAt outer).toList ++ '\x7d' :: rest))) =
      .ok ⟨.obj (read ++ joinedFields ((k, v) :: fields)), j, rest⟩ := by
  induction fields generalizing k v read fuel i with
  | nil =>
    obtain ⟨fuel, rfl⟩ := Nat.exists_eq_add_of_le' hfuel
    obtain ⟨j, hj⟩ := readFields_fieldText (h.keys _ List.mem_cons_self) (h.values _ List.mem_cons_self) fuel i depth read
      ((writeFields depth false []).toList ++ ((lineAt outer).toList ++ '\x7d' :: rest))
    have hskip : skip j ((writeFields depth false []).toList ++ ((lineAt outer).toList ++ '\x7d' :: rest)) =
        (j + (lineAt outer).toList.length, '\x7d' :: rest) := by
      rw [writeFields]
      exact skip_append _ (isLayout_lineAt outer) rfl j
    rw [hskip] at hj
    refine ⟨j + (lineAt outer).toList.length + 1, ?_⟩
    rw [List.length_nil, Nat.zero_add, hj, Table.put_of_notMem (hread _ List.mem_cons_self)]
    rfl
  | cons x fields ih =>
    obtain ⟨k', v'⟩ := x
    rw [List.length_cons] at hfuel
    obtain ⟨fuel, rfl⟩ := Nat.exists_eq_add_of_le' (show 2 ≤ fuel by omega)
    have hnew : k ∉ read.map Prod.fst := hread _ List.mem_cons_self
    have hfields := h.tail
    have hread' : ∀ x ∈ (k', v') :: fields, x.1 ∉ (read ++ [(k, v.joined)]).map Prod.fst := by
      intro x hx hmem
      rw [List.map_append, List.mem_append] at hmem
      rcases hmem with hmem | hmem
      · exact hread x (List.mem_cons_of_mem _ hx) hmem
      · rw [List.map_singleton, List.mem_singleton] at hmem
        exact (List.nodup_cons.mp h.nodup).1 (hmem ▸ List.mem_map_of_mem hx)
    -- what stands behind the first field
    let after := fieldText depth k' v' ++ ((writeFields depth false fields).toList ++ ((lineAt outer).toList ++ '\x7d' :: rest))
    have hafter : (writeFields depth false ((k', v') :: fields)).toList ++ ((lineAt outer).toList ++ '\x7d' :: rest) =
        ',' :: ((lineAt depth).toList ++ after) := by
      simp [toList_writeFields_cons, after]
    obtain ⟨tail, htail⟩ : ∃ tail, after = '"' :: tail := by
      simp [after, fieldText, toList_writeText]
    obtain ⟨j, hj⟩ := readFields_fieldText (h.keys _ List.mem_cons_self) (h.values _ List.mem_cons_self) fuel i depth read
      (',' :: ((lineAt depth).toList ++ after))
    have hcomma : skip j (',' :: ((lineAt depth).toList ++ after)) = (j, ',' :: ((lineAt depth).toList ++ after)) :=
      skip_cons rfl j _
    have hlayout : skip (j + 1) ((lineAt depth).toList ++ after) = (j + 1 + (lineAt depth).toList.length, after) := by
      rw [htail]
      exact skip_append _ (isLayout_lineAt depth) rfl (j + 1)
    rw [hcomma] at hj
    obtain ⟨m, hm⟩ := ih hfields hread' (show fields.length + 2 ≤ fuel + 1 by omega) (j + 1 + (lineAt depth).toList.length)
    refine ⟨m, ?_⟩
    rw [hafter, hj]
    simp only [hlayout]
    rw [Table.put_of_notMem hnew, hm, List.append_assoc]
    rfl

/-- A text is read when it begins with a value and only layout stands behind that. -/
theorem read_of_ok {text : List Char} {f : Found Json} (hmark : text.head? ≠ some (Char.ofNat 0xfeff))
    (hvalue : readValue (2 * text.length + 2) (skip 0 text).1 (skip 0 text).2 = .ok f)
    (hend : (skip f.index f.rest).2 = []) : Json.read text = .ok f.value := by
  rw [Json.read, if_neg hmark]
  dsimp only
  rw [hvalue]
  dsimp only
  rw [← Prod.eta (skip f.index f.rest), hend]

theorem length_le_writeFields (fields : List (Text × Json)) (depth : Nat) (first : Bool) :
    fields.length ≤ (writeFields depth first fields).toList.length := by
  induction fields generalizing first with
  | nil => exact Nat.zero_le _
  | cons x fields ih =>
    obtain ⟨k, v⟩ := x
    have hrest := ih false
    rw [toList_writeFields_cons, toList_lineAt]
    simp only [List.length_append, List.length_cons]
    omega

/-- A written object of plain fields, with the line end behind it, reads back with its texts joined. -/
theorem read_write_obj {fields : List (Text × Json)} (hne : fields ≠ []) (h : PlainFields fields) :
    read (write (.obj fields) ++ "\n").toList = .ok (.obj (joinedFields fields)) := by
  obtain ⟨⟨k, v⟩, fields, rfl⟩ := List.exists_cons_of_ne_nil hne
  let body := fieldText 1 k v ++ ((writeFields 1 false fields).toList ++ ((lineAt 0).toList ++ ['\x7d', '\n']))
  have htext : (write (.obj ((k, v) :: fields)) ++ "\n").toList = '\x7b' :: ((lineAt 1).toList ++ body) := by
    have hwrite : write (.obj ((k, v) :: fields)) =
        "\x7b" ++ writeFields 1 true ((k, v) :: fields) ++ lineAt 0 ++ "\x7d" := by
      rw [write, writeAt]
      exact List.cons_ne_nil _ _
    rw [hwrite]
    simp [toList_writeFields_cons, body]
  obtain ⟨tail, htail⟩ : ∃ tail, body = '"' :: tail := by
    simp [body, fieldText, toList_writeText]
  have hlayout : skip 1 ((lineAt 1).toList ++ body) = (1 + (lineAt 1).toList.length, body) := by
    rw [htail]
    exact skip_append _ (isLayout_lineAt 1) rfl 1
  have hlength := length_le_writeFields fields 1 false
  obtain ⟨fuel, hfuel⟩ : ∃ fuel, 2 * (write (.obj ((k, v) :: fields)) ++ "\n").toList.length + 2 = fuel + 1 := ⟨_, rfl⟩
  have hle : fields.length + 2 ≤ fuel := by
    rw [htext, List.length_cons, List.length_append] at hfuel
    have hbody : body.length = (fieldText 1 k v).length + ((writeFields 1 false fields).toList.length +
        ((lineAt 0).toList.length + 2)) := by
      simp [body]
    omega
  have hfresh : ∀ x ∈ (k, v) :: fields, x.1 ∉ ([] : List (Text × Json)).map Prod.fst := fun _ _ => List.not_mem_nil
  obtain ⟨j, hj⟩ := readFields_writeFields h hfresh hle (1 + (lineAt 1).toList.length) 1 0 ['\n']
  change readFields fuel [] _ body = _ at hj
  have hvalue : readValue (fuel + 1) 0 ('\x7b' :: ((lineAt 1).toList ++ body)) =
      .ok ⟨.obj (joinedFields ((k, v) :: fields)), j, ['\n']⟩ := by
    rw [readValue, hlayout]
    rw [htail] at hj ⊢
    exact hj
  rw [htext] at hfuel ⊢
  refine read_of_ok (f := ⟨_, j, ['\n']⟩) ?_ ?_ rfl
  · rw [List.head?_cons]
    decide
  · rw [hfuel, skip_cons rfl]
    exact hvalue

/-! ## Characters -/

theorem cr_notMem_unitEscape (u : Nat) : '\r' ∉ unitEscape u := by
  have hdigits : (Utf8.hexDigits 4 u).toList.all (· ≠ '\r') = true := all_hexDigits (by decide) 4 u
  rw [List.all_eq_true] at hdigits
  simp only [unitEscape, List.mem_cons, not_or]
  refine ⟨by decide, by decide, fun hmem => ?_⟩
  exact absurd rfl (of_decide_eq_true (hdigits _ hmem))

/-- Nothing that is written holds a carriage return. -/
theorem cr_notMem_writeCode (n : Nat) : '\r' ∉ (writeCode n).toList := by
  rcases toList_writeCode n with ⟨e, htext, -, hcode⟩ | ⟨c, htext, rfl, hge, -⟩ | htext
  · rw [htext]
    rintro (_ | ⟨_, _ | ⟨_, h⟩⟩)
    · cases hcode
    · cases h
  · rw [htext, List.mem_singleton]
    rintro rfl
    exact absurd hge (by decide)
  · rw [htext, List.mem_flatMap]
    rintro ⟨u, -, hu⟩
    exact cr_notMem_unitEscape u hu

theorem cr_notMem_writeText (t : Text) : '\r' ∉ (writeText t).toList := by
  rw [toList_writeText]
  simp only [List.cons_append, List.mem_cons, List.mem_append, List.not_mem_nil, or_false, not_or]
  refine ⟨by decide, ?_, by decide⟩
  intro hmem
  obtain ⟨n, -, hn⟩ := List.mem_flatMap.mp hmem
  exact cr_notMem_writeCode n hn

theorem cr_notMem_lineAt (depth : Nat) : '\r' ∉ (lineAt depth).toList := by
  simp [toList_lineAt]

theorem cr_notMem_writeAt {v : Json} (hv : v.Plain) (depth : Nat) : '\r' ∉ (writeAt depth v).toList := by
  cases v with
  | null => simp [writeAt]
  | bool b => cases b <;> simp [writeAt]
  | str s =>
    rw [writeAt]
    exact cr_notMem_writeText s
  | _ => cases hv

theorem cr_notMem_writeFields {fields : List (Text × Json)} (hv : ∀ x ∈ fields, x.2.Plain) (depth : Nat) (first : Bool) :
    '\r' ∉ (writeFields depth first fields).toList := by
  induction fields generalizing first with
  | nil => simp [writeFields]
  | cons x fields ih =>
    obtain ⟨k, v⟩ := x
    rw [List.forall_mem_cons] at hv
    have hrest := ih hv.2 false
    have hvalue := cr_notMem_writeAt hv.1 depth
    rw [toList_writeFields_cons, fieldText]
    cases first <;> simp [cr_notMem_lineAt, cr_notMem_writeText, hvalue, hrest]

theorem cr_notMem_write_obj {fields : List (Text × Json)} (hv : ∀ x ∈ fields, x.2.Plain) :
    '\r' ∉ (write (.obj fields) ++ "\n").toList := by
  cases fields with
  | nil => simp [write, writeAt]
  | cons x fields =>
    have hwrite : write (.obj (x :: fields)) = "\x7b" ++ writeFields 1 true (x :: fields) ++ lineAt 0 ++ "\x7d" := by
      rw [write, writeAt]
      exact List.cons_ne_nil _ _
    rw [hwrite]
    simp [cr_notMem_lineAt, cr_notMem_writeFields hv]

end Json

end JsonnetLocals
