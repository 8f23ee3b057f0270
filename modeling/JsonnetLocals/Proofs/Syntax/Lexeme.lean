/-
  JsonnetLocals.Proofs.Syntax.Lexeme — how much of a text a terminal takes.

  No terminal takes more than there is (`Terminal.width_le`), and `Terminal.first_eq_some_iff` says
  which one is taken: the first that is allowed and matches. A name is a whole run of name
  characters that begins with no digit (`nameWidth_append`).
-/

import JsonnetLocals.Syntax.Parse
import Mathlib.Tactic.Common

namespace JsonnetLocals

namespace Lexeme

/-! ## Names -/

theorem isNameChar_of_isNameStart {c : Char} (h : isNameStart c = true) : isNameChar c = true := by
  simp [isNameChar, h]

/-- A run of characters with a property is taken up to the first one without it. -/
theorem takeWhile_append_of_all {p : Char → Bool} {xs ys : List Char} (h : xs.all p = true)
    (hy : ys.head?.any p = false) : (xs ++ ys).takeWhile p = xs := by
  rw [List.takeWhile_append_of_pos (by simpa using h)]
  cases ys with
  | nil => simp
  | cons y ys => rw [List.takeWhile_cons_of_neg (by simpa using hy), List.append_nil]

/-- A run is as long as `xs` exactly when it is `xs`. -/
theorem length_takeWhile_append {p : Char → Bool} {xs ys : List Char} :
    ((xs ++ ys).takeWhile p).length = xs.length ↔ xs.all p = true ∧ ys.head?.any p = false := by
  constructor
  · intro hlen
    have hxs : (xs ++ ys).takeWhile p = xs := by
      have hpre := List.takeWhile_prefix p (l := xs ++ ys)
      exact (List.prefix_of_prefix_length_le hpre (List.prefix_append xs ys) (Nat.le_of_eq hlen)).eq_of_length hlen
    have hall : xs.all p = true := by
      rw [← hxs]
      exact List.all_takeWhile
    refine ⟨hall, ?_⟩
    cases ys with
    | nil => rfl
    | cons y ys =>
      by_contra hy
      have hy : p y = true := by simpa using hy
      rw [List.takeWhile_append_of_pos (by simpa using hall), List.takeWhile_cons_of_pos hy] at hlen
      simp at hlen
  · rintro ⟨hall, hy⟩
    rw [takeWhile_append_of_all hall hy]

/-- A name is the longest run of name characters that begins with no digit, unless a reserved word
    stands there. -/
theorem nameWidth_append {text rest : List Char} (hne : text ≠ []) :
    nameWidth (text ++ rest) = text.length ↔
      text.head?.any isNameStart = true ∧ text.all isNameChar = true ∧ rest.head?.any isNameChar = false ∧
        startsReserved (text ++ rest) = false := by
  obtain ⟨c, cs, rfl⟩ := List.exists_cons_of_ne_nil hne
  simp only [List.cons_append, nameWidth, List.head?_cons, Option.any_some, List.length_cons, List.all_cons]
  constructor
  · intro h
    split at h
    · rename_i hc
      rw [Bool.and_eq_true, Bool.not_eq_true'] at hc
      obtain ⟨hall, hrest⟩ := length_takeWhile_append.mp (show ((cs ++ rest).takeWhile isNameChar).length = cs.length by omega)
      exact ⟨hc.1, by simp [isNameChar_of_isNameStart hc.1, hall], hrest, hc.2⟩
    · omega
  · rintro ⟨h1, h2, h3, h4⟩
    rw [Bool.and_eq_true] at h2
    rw [if_pos (by simp [h1, h4]), takeWhile_append_of_all h2.2 h3]
    omega

/-! ## No width exceeds the text -/

theorem nameWidth_le (cs : List Char) : nameWidth cs ≤ cs.length := by
  match cs with
  | [] => exact Nat.le_refl 0
  | c :: rest =>
    have := List.takeWhile_prefix isNameChar (l := rest) |>.length_le
    simp only [nameWidth, List.length_cons]
    split <;> omega

theorem digitsWidth_le (cs : List Char) : digitsWidth cs ≤ cs.length :=
  (List.takeWhile_prefix isDigit).length_le

theorem fractionWidth_le (cs : List Char) : fractionWidth cs ≤ cs.length := by
  unfold fractionWidth
  split
  · rename_i rest
    have := digitsWidth_le rest
    simp only [List.length_cons]
    split <;> omega
  · omega

theorem signWidth_le (cs : List Char) : signWidth cs ≤ cs.length := by
  unfold signWidth
  split
  · simp only [List.length_cons]
    split <;> omega
  · omega

theorem exponentWidth_le (cs : List Char) : exponentWidth cs ≤ cs.length := by
  unfold exponentWidth
  split
  · rename_i c rest
    have h1 := signWidth_le rest
    have h2 := digitsWidth_le (rest.drop (signWidth rest))
    rw [List.length_drop] at h2
    simp only [List.length_cons]
    split <;> omega
  · omega

theorem numberWidth_le (cs : List Char) : numberWidth cs ≤ cs.length := by
  have h1 := digitsWidth_le cs
  have h2 := fractionWidth_le (cs.drop (digitsWidth cs))
  have h3 := exponentWidth_le (cs.drop (digitsWidth cs + fractionWidth (cs.drop (digitsWidth cs))))
  simp only [List.length_drop] at h2 h3
  simp only [numberWidth]
  split <;> omega

theorem quotedRest_le (quote : Char) (n : Nat) (cs : List Char) : quotedRest quote n cs ≤ n + cs.length := by
  fun_induction quotedRest quote n cs with
  | case1 | case2 => omega
  | case3 n c rest ih => simp only [List.length_cons] at ih ⊢; omega
  | case4 => simp only [List.length_cons]; omega
  | case5 n c rest h ih => simp only [List.length_cons] at ih ⊢; omega

theorem quotedWidth_le (quote : Char) (cs : List Char) : quotedWidth quote cs ≤ cs.length := by
  unfold quotedWidth
  split
  · rename_i c rest
    have := quotedRest_le quote 1 rest
    simp only [List.length_cons]
    split <;> omega
  · omega

theorem verbatimRest_le (quote : Char) (n fallback : Nat) (cs : List Char) (h : fallback ≤ n) :
    verbatimRest quote n fallback cs ≤ n + cs.length := by
  fun_induction verbatimRest quote n fallback cs with
  | case1 => simpa using h
  | case2 n fallback rest ih => have := ih (by omega); simp only [List.length_cons] at this ⊢; omega
  | case3 | case4 => simp only [List.length_cons]; omega
  | case5 n fallback c rest hc ih => have := ih (by omega); simp only [List.length_cons] at this ⊢; omega

theorem verbatimWidth_le (quote : Char) (cs : List Char) : verbatimWidth quote cs ≤ cs.length := by
  unfold verbatimWidth
  split
  · rename_i c rest
    have := verbatimRest_le quote 2 0 rest (by omega)
    simp only [List.length_cons]
    split <;> omega
  · omega

theorem blockCloseWidth_le (cs : List Char) : blockCloseWidth cs ≤ cs.length := by
  unfold blockCloseWidth
  split
  · rename_i rest
    dsimp only
    split
    · rename_i h
      have := (List.isPrefixOf_iff_prefix.mp h).length_le
      rw [List.length_drop] at this
      have hb : bars.length = 3 := rfl
      simp only [List.length_cons]
      omega
    · omega
  · omega

theorem blockRest_le (n : Nat) (cs : List Char) : blockRest n cs ≤ n + cs.length := by
  induction cs generalizing n with
  | nil => simp [blockRest]
  | cons c rest ih =>
    have h1 := blockCloseWidth_le (c :: rest)
    have h2 := ih (n + 1)
    rw [blockRest]
    simp only [List.length_cons] at h1 h2 ⊢
    split <;> omega

theorem lineBreakWidth_le (cs : List Char) : lineBreakWidth cs ≤ cs.length := by
  unfold lineBreakWidth
  split <;> simp

theorem blockOpenWidth_le (cs : List Char) : blockOpenWidth cs ≤ cs.length := by
  have h1 : (if cs.head? = some '-' then 1 else 0) ≤ cs.length := by
    cases cs with
    | nil => simp
    | cons c rest => simp only [List.length_cons]; split <;> omega
  simp only [blockOpenWidth]
  generalize (if cs.head? = some '-' then 1 else 0) = dash at *
  have h2 := (List.takeWhile_prefix isIndent (l := cs.drop dash)).length_le
  have h3 := lineBreakWidth_le (cs.drop (dash + ((cs.drop dash).takeWhile isIndent).length))
  simp only [List.length_drop] at h2 h3
  split <;> omega

theorem textBlockWidth_le (cs : List Char) : textBlockWidth cs ≤ cs.length := by
  have h1 := blockOpenWidth_le (cs.drop 3)
  have h2 := blockRest_le (3 + blockOpenWidth (cs.drop 3)) (cs.drop (3 + blockOpenWidth (cs.drop 3)))
  simp only [List.length_drop] at h1 h2
  simp only [textBlockWidth]
  split
  · rename_i hb
    have := (List.isPrefixOf_iff_prefix.mp hb).length_le
    have h3 : bars.length = 3 := rfl
    split <;> omega
  · omega

theorem commentRest_le (n : Nat) (cs : List Char) : commentRest n cs ≤ n + cs.length := by
  fun_induction commentRest n cs with
  | case1 => simp only [List.length_cons]; omega
  | case2 n c rest h ih => simp only [List.length_cons]; omega
  | case3 => omega

theorem blockCommentWidth_le (cs : List Char) : blockCommentWidth cs ≤ cs.length := by
  unfold blockCommentWidth
  split
  · rename_i rest
    have := commentRest_le 2 rest
    simp only [List.length_cons]
    omega
  · omega

theorem lineCommentWidth_le (cs : List Char) : lineCommentWidth cs ≤ cs.length := by
  unfold lineCommentWidth
  split
  · rename_i rest
    have := (List.takeWhile_prefix (· ≠ '\n') (l := rest)).length_le
    simp only [List.length_cons]
    omega
  · omega

theorem hashCommentWidth_le (cs : List Char) : hashCommentWidth cs ≤ cs.length := by
  unfold hashCommentWidth
  split
  · rename_i rest
    have := (List.takeWhile_prefix (· ≠ '\n') (l := rest)).length_le
    simp only [List.length_cons]
    omega
  · omega

theorem symbolWidth_le (s : Symbol) (cs : List Char) : symbolWidth s cs ≤ cs.length := by
  unfold symbolWidth
  split
  · rename_i h
    exact String.length_toList ▸ (List.isPrefixOf_iff_prefix.mp h).length_le
  · omega

end Lexeme

namespace Terminal

open Lexeme in
/-- No terminal takes more than there is. -/
theorem width_le (t : Terminal) (cs : List Char) : t.width cs ≤ cs.length := by
  cases t with
  | name => exact nameWidth_le cs
  | textBlock => exact textBlockWidth_le cs
  | number => exact numberWidth_le cs
  | stringDouble => exact quotedWidth_le _ cs
  | stringSingle => exact quotedWidth_le _ cs
  | blockComment => exact blockCommentWidth_le cs
  | verbatimDouble => exact verbatimWidth_le _ cs
  | verbatimSingle => exact verbatimWidth_le _ cs
  | lineComment => exact lineCommentWidth_le cs
  | whitespace => exact (List.takeWhile_prefix isLayout).length_le
  | hashComment => exact hashCommentWidth_le cs
  | symbol s => exact symbolWidth_le s cs

/-- The terminal taken is the first one in rank that is allowed and matches. -/
theorem first_eq_some_iff {allowed : Terminal → Bool} {cs : List Char} {t : Terminal} {w : Nat} :
    first allowed cs = some (t, w) ↔
      allowed t = true ∧ t.width cs = w ∧ w ≠ 0 ∧
        ∃ earlier later, ranked = earlier ++ t :: later ∧ ∀ u ∈ earlier, allowed u = true → u.width cs = 0 := by
  simp only [first, List.findSome?_eq_some_iff]
  constructor
  · rintro ⟨earlier, u, later, hr, hu, he⟩
    split at hu
    · split at hu
      · cases hu
      · cases hu
        refine ⟨‹_›, rfl, ‹_›, earlier, later, hr, fun v hv ha => ?_⟩
        have := he v hv
        rw [if_pos ha] at this
        split at this
        · assumption
        · cases this
    · cases hu
  · rintro ⟨ha, rfl, hw, earlier, later, hr, he⟩
    refine ⟨earlier, t, later, hr, by rw [if_pos ha]; simp only [hw, if_false], fun v hv => ?_⟩
    by_cases hv' : allowed v = true
    · rw [if_pos hv']
      simp only [he v hv hv', if_true]
    · rw [if_neg hv']

theorem first_width {allowed : Terminal → Bool} {cs : List Char} {t : Terminal} {w : Nat}
    (h : first allowed cs = some (t, w)) : t.width cs = w ∧ 0 < w ∧ w ≤ cs.length := by
  obtain ⟨_, rfl, hw, _⟩ := first_eq_some_iff.mp h
  exact ⟨rfl, Nat.pos_of_ne_zero hw, width_le t cs⟩

theorem first_allowed {allowed : Terminal → Bool} {cs : List Char} {t : Terminal} {w : Nat}
    (h : first allowed cs = some (t, w)) : allowed t = true := (first_eq_some_iff.mp h).1

end Terminal

end JsonnetLocals
