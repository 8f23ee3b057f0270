/-
  JsonnetLocals.Proofs.Syntax.Inserted — how much is taken of a text that changes further on.

  Two texts agree up to a character that the second one has and the first one may not (`Agrees`). Tags are
  one way to get there: a tag is a run of name characters that begins with `_`, and tags are inserted in
  front of characters that can begin a name (`Inserted`). Whatever ends by itself keeps its width
  whatever follows: a quoted string, a block comment, a text block. What ends at the next character
  keeps it because the next character stays, or is one that ends it as well: layout, a line. A number
  may look three characters ahead, and stays because the texts agree on characters of numbers
  (`numberWidth_agrees`). A verbatim string ends at a quote, or falls back when its end is missing: tags
  hold no quotes, and where no quote follows it did not fall back (`verbatimWidth_append`).
-/

import JsonnetLocals.Proofs.Syntax.Lexeme
import Mathlib.Data.List.TakeWhile

namespace JsonnetLocals

open Lexeme

/-! ## Inserted tags -/

/-- A run of name characters that begins with `_`. -/
def IsTag (tag : List Char) : Prop := tag.head? = some '_' ∧ tag.all isNameChar = true

theorem IsTag.exists_eq {tag : List Char} (h : IsTag tag) : ∃ rest, tag = '_' :: rest :=
  List.head?_eq_some_iff.mp h.1

/-- The second text is the first one with the tag in front of some characters that can begin a name. -/
inductive Inserted (tag : List Char) : List Char → List Char → Prop
  | nil : Inserted tag [] []
  | keep (c : Char) {cs ds : List Char} : Inserted tag cs ds → Inserted tag (c :: cs) (c :: ds)
  | insert (c : Char) {cs ds : List Char} : isNameStart c = true → Inserted tag cs ds → Inserted tag (c :: cs) (tag ++ c :: ds)

namespace Inserted

variable {tag cs ds : List Char}

theorem refl (cs : List Char) : Inserted tag cs cs := by
  induction cs with
  | nil => exact .nil
  | cons c cs ih => exact .keep c ih

theorem append {us vs : List Char} (h : Inserted tag us vs) (h' : Inserted tag cs ds) : Inserted tag (us ++ cs) (vs ++ ds) := by
  induction h with
  | nil => exact h'
  | keep c _ ih => exact .keep c ih
  | insert c hc _ ih =>
    rw [List.append_assoc]
    exact .insert c hc ih

/-- The first character stays, or it could begin a name and `_` does now. -/
theorem head (ht : IsTag tag) (h : Inserted tag cs ds) :
    ds.head? = cs.head? ∨ cs.head?.any isNameStart = true ∧ ds.head? = some '_' := by
  cases h with
  | nil => exact .inl rfl
  | keep => exact .inl rfl
  | insert c hc =>
    refine .inr ⟨hc, ?_⟩
    rw [List.head?_append, ht.1]
    rfl

/-- A character of no name comes first exactly where it did. -/
theorem head?_eq_some_iff (ht : IsTag tag) (h : Inserted tag cs ds) {q : Char} (hq : isNameChar q = false) :
    ds.head? = some q ↔ cs.head? = some q := by
  rcases h.head ht with he | ⟨hstart, he⟩
  · rw [he]
  · constructor
    · intro hd
      rw [he, Option.some.injEq] at hd
      subst hd
      cases hq
    · intro hc
      rw [hc, Option.any_some] at hstart
      rw [isNameChar_of_isNameStart hstart] at hq
      cases hq

/-- A character that begins no name stays, and behind it the rest is again as before. -/
theorem exists_cons {c : Char} (h : Inserted tag (c :: cs) ds) (hc : isNameStart c = false) :
    ∃ ds', ds = c :: ds' ∧ Inserted tag cs ds' := by
  cases h with
  | keep _ h' => exact ⟨_, rfl, h'⟩
  | insert _ hc' => rw [hc'] at hc; cases hc

theorem notMem (ht : IsTag tag) {q : Char} (hq : isNameChar q = false) (h : Inserted tag cs ds) (hc : q ∉ cs) : q ∉ ds := by
  have htag : q ∉ tag := by
    intro hm
    rw [List.all_eq_true.mp ht.2 q hm] at hq
    cases hq
  induction h with
  | nil => exact hc
  | keep c _ ih =>
    rw [List.mem_cons, not_or] at hc ⊢
    exact ⟨hc.1, ih hc.2⟩
  | insert c _ _ ih =>
    rw [List.mem_cons, not_or] at hc
    rw [List.mem_append, List.mem_cons, not_or, not_or]
    exact ⟨htag, hc.1, ih hc.2⟩

end Inserted

/-! ## Runs of characters -/

/-- A run that ends at the end of `text` ends there wherever the next character ends it. -/
theorem length_takeWhile_behind {p : Char → Bool} {text cs ds : List Char}
    (hstop : cs.head?.any p = false → ds.head?.any p = false) (hw : ((text ++ cs).takeWhile p).length = text.length) :
    ((text ++ ds).takeWhile p).length = text.length := by
  obtain ⟨hall, hcs⟩ := length_takeWhile_append.mp hw
  exact length_takeWhile_append.mpr ⟨hall, hstop hcs⟩

theorem stop_inserted {tag cs ds : List Char} {p : Char → Bool} (ht : IsTag tag)
    (hp : p '_' = false ∨ ∀ c, isNameStart c = true → p c = true) (h : Inserted tag cs ds) (hc : cs.head?.any p = false) :
    ds.head?.any p = false := by
  rcases h.head ht with he | ⟨hstart, he⟩
  · rw [he]
    exact hc
  · rcases hp with hp | hp
    · rw [he]
      exact hp
    · cases cs with
      | nil => cases hstart
      | cons c cs =>
        rw [List.head?_cons, Option.any_some] at hstart hc
        rw [hp c hstart] at hc
        cases hc

/-! ## Texts that agree at the front -/

/-- The second text goes on as the first one, up to its end or to a character without the property. -/
inductive Agrees (p : Char → Bool) : List Char → List Char → Prop
  | stop {cs ds : List Char} : ds.head?.any p = false → Agrees p cs ds
  | keep (c : Char) {cs ds : List Char} : Agrees p cs ds → Agrees p (c :: cs) (c :: ds)

namespace Agrees

variable {p q : Char → Bool} {cs ds : List Char}

theorem any_eq_false_of_imp {o : Option Char} (hqp : ∀ c, q c = true → p c = true) (h : o.any p = false) :
    o.any q = false := by
  cases o with
  | none => rfl
  | some c =>
    rw [Option.any_some, Bool.eq_false_iff] at h ⊢
    exact fun hq => h (hqp c hq)

theorem append (us : List Char) (h : Agrees p cs ds) : Agrees p (us ++ cs) (us ++ ds) := by
  induction us with
  | nil => exact h
  | cons u us ih => exact .keep u ih

theorem mono (hqp : ∀ c, q c = true → p c = true) (h : Agrees p cs ds) : Agrees q cs ds := by
  induction h with
  | stop hstop => exact .stop (any_eq_false_of_imp hqp hstop)
  | keep c _ ih => exact .keep c ih

/-- A character with the property stands where it did, and behind it the texts agree again. -/
theorem of_cons {c : Char} (h : Agrees p cs (c :: ds)) (hc : p c = true) : ∃ cs', cs = c :: cs' ∧ Agrees p cs' ds := by
  cases h with
  | stop hstop =>
    rw [List.head?_cons, Option.any_some, hc] at hstop
    cases hstop
  | keep _ h' => exact ⟨_, rfl, h'⟩

/-- A text of such characters stands at the front only where it did. -/
theorem of_prefix {us : List Char} (h : Agrees p cs ds) (hu : us.all p = true) (hfront : us <+: ds) : us <+: cs := by
  induction us generalizing cs ds with
  | nil => exact List.nil_prefix
  | cons u us ih =>
    obtain ⟨after, rfl⟩ := hfront
    rw [List.all_cons, Bool.and_eq_true] at hu
    obtain ⟨cs', rfl, h'⟩ := h.of_cons hu.1
    exact List.cons_prefix_cons.mpr ⟨rfl, ih h' hu.2 (List.prefix_append us after)⟩

theorem head?_any (h : Agrees p cs ds) (hqp : ∀ c, q c = true → p c = true) (hc : cs.head?.any q = false) :
    ds.head?.any q = false := by
  cases h with
  | stop hstop => exact any_eq_false_of_imp hqp hstop
  | keep => exact hc

theorem head?_ne {c : Char} (h : Agrees p cs ds) (hp : p c = true) (hc : cs.head? ≠ some c) : ds.head? ≠ some c := by
  intro hd
  obtain ⟨ds, rfl⟩ := List.head?_eq_some_iff.mp hd
  obtain ⟨cs, rfl, -⟩ := h.of_cons hp
  exact hc rfl

end Agrees

/-- Up to the first tag, the text is as before. -/
theorem Inserted.agrees {tag cs ds : List Char} (ht : IsTag tag) (h : Inserted tag cs ds) : Agrees (· ≠ '_') cs ds := by
  induction h with
  | nil => exact .stop rfl
  | keep c _ ih => exact .keep c ih
  | insert c _ _ =>
    obtain ⟨rest, rfl⟩ := ht.exists_eq
    exact .stop rfl

/-! ## Numbers -/

theorem exists_split_at {text : List Char} {k : Nat} (hk : k ≤ text.length) :
    ∃ front back, text = front ++ back ∧ front.length = k :=
  ⟨text.take k, text.drop k, (List.take_append_drop k text).symm, List.length_take_of_le hk⟩

def isNumberChar (c : Char) : Bool := isDigit c || ['.', 'e', 'E', '+', '-'].contains c

section Numbers

variable {text cs ds : List Char}

theorem digitsWidth_agrees (text : List Char) (h : Agrees isNumberChar cs ds) (hw : digitsWidth (text ++ cs) = text.length) :
    digitsWidth (text ++ ds) = text.length :=
  length_takeWhile_behind (h.head?_any fun c hc => by simp [isNumberChar, hc]) hw

theorem fractionWidth_of_ne {c : Char} (hc : c ≠ '.') (cs : List Char) : fractionWidth (c :: cs) = 0 := by
  unfold fractionWidth
  split
  · simp_all
  · rfl

theorem fractionWidth_point (cs : List Char) :
    fractionWidth ('.' :: cs) = if digitsWidth cs = 0 then 0 else 1 + digitsWidth cs := rfl

theorem fractionWidth_agrees (h : Agrees isNumberChar cs ds) (hw : fractionWidth (text ++ cs) = text.length) :
    fractionWidth (text ++ ds) = text.length := by
  cases text with
  | nil =>
    rw [List.nil_append, List.length_nil] at hw ⊢
    cases ds with
    | nil => rfl
    | cons d ds =>
      by_cases hd : d = '.'
      · subst hd
        obtain ⟨cs', rfl, h'⟩ := h.of_cons rfl
        rw [fractionWidth_point] at hw ⊢
        have hnone : digitsWidth cs' = 0 := by
          by_contra hne
          rw [if_neg hne] at hw
          omega
        exact if_pos (digitsWidth_agrees [] h' hnone)
      · exact fractionWidth_of_ne hd ds
  | cons c text =>
    rw [List.cons_append, List.length_cons] at hw ⊢
    by_cases hc : c = '.'
    · subst hc
      rw [fractionWidth_point] at hw ⊢
      have hne : digitsWidth (text ++ cs) ≠ 0 := by
        intro he
        rw [if_pos he] at hw
        omega
      rw [if_neg hne] at hw
      have hdigits : digitsWidth (text ++ ds) = text.length := digitsWidth_agrees text h (by omega)
      rw [hdigits, if_neg (by omega)]
      omega
    · rw [fractionWidth_of_ne hc] at hw
      omega

theorem signWidth_cons (c : Char) (cs : List Char) : signWidth (c :: cs) = if c = '+' ∨ c = '-' then 1 else 0 := rfl

/-- Where no digits followed a sign, none do. -/
theorem digitsWidth_signed_agrees (h : Agrees isNumberChar cs ds) (hw : digitsWidth (cs.drop (signWidth cs)) = 0) :
    digitsWidth (ds.drop (signWidth ds)) = 0 := by
  cases h with
  | stop hstop =>
    cases ds with
    | nil => rfl
    | cons d ds =>
      rw [List.head?_cons, Option.any_some, isNumberChar, Bool.or_eq_false_iff] at hstop
      have hsign : ¬ (d = '+' ∨ d = '-') := by
        rintro (rfl | rfl) <;> exact absurd hstop.2 (by decide)
      rw [signWidth_cons, if_neg hsign, List.drop_zero, digitsWidth, List.takeWhile_cons_of_neg (by simp [hstop.1])]
      rfl
  | keep c h' =>
    rw [signWidth_cons] at hw ⊢
    split at hw
    · rename_i hc
      rw [if_pos hc]
      exact digitsWidth_agrees [] h' hw
    · rename_i hc
      rw [if_neg hc]
      exact digitsWidth_agrees [] (.keep c h') hw

theorem exponentWidth_cons (c : Char) (cs : List Char) :
    exponentWidth (c :: cs) =
      if (c = 'e' ∨ c = 'E') ∧ digitsWidth (cs.drop (signWidth cs)) ≠ 0 then
        1 + signWidth cs + digitsWidth (cs.drop (signWidth cs))
      else 0 := rfl

theorem exponentWidth_agrees (h : Agrees isNumberChar cs ds) (hw : exponentWidth (text ++ cs) = text.length) :
    exponentWidth (text ++ ds) = text.length := by
  match text with
  | [] =>
    rw [List.nil_append, List.length_nil] at hw ⊢
    cases ds with
    | nil => rfl
    | cons d ds =>
      rw [exponentWidth_cons, if_neg]
      rintro ⟨hd, hdigits⟩
      obtain ⟨cs', rfl, h'⟩ := h.of_cons (by rcases hd with rfl | rfl <;> rfl)
      rw [exponentWidth_cons, if_pos ⟨hd, fun hz => hdigits (digitsWidth_signed_agrees h' hz)⟩] at hw
      omega
  | [c] =>
    -- a mark without digits is no exponent
    rw [List.singleton_append, exponentWidth_cons, List.length_singleton] at hw
    split at hw <;> omega
  | c :: d :: text =>
    rw [List.cons_append, exponentWidth_cons, List.length_cons] at hw ⊢
    have hsign : signWidth (d :: text ++ ds) = signWidth (d :: text ++ cs) := rfl
    rw [hsign]
    split at hw
    · rename_i hc
      have hle : signWidth (d :: text ++ cs) ≤ (d :: text).length := by omega
      rw [List.drop_append_of_le_length hle] at hw hc ⊢
      have hdigits := digitsWidth_agrees ((d :: text).drop (signWidth (d :: text ++ cs))) h (by rw [List.length_drop]; omega)
      rw [List.length_drop] at hdigits
      rw [hdigits, if_pos ⟨hc.1, by omega⟩]
      omega
    · omega

def decimalsWidth (cs : List Char) : Nat := fractionWidth cs + exponentWidth (cs.drop (fractionWidth cs))

theorem numberWidth_eq (cs : List Char) :
    numberWidth cs = if digitsWidth cs = 0 then 0 else digitsWidth cs + decimalsWidth (cs.drop (digitsWidth cs)) := by
  unfold numberWidth decimalsWidth
  simp only [List.drop_drop, Nat.add_assoc]

theorem decimalsWidth_agrees (h : Agrees isNumberChar cs ds) (hw : decimalsWidth (text ++ cs) = text.length) :
    decimalsWidth (text ++ ds) = text.length := by
  have hle : fractionWidth (text ++ cs) ≤ text.length := by
    rw [decimalsWidth] at hw
    omega
  obtain ⟨fraction, text, rfl, hlen⟩ := exists_split_at hle
  rw [List.append_assoc] at hw hlen ⊢
  have hfraction := fractionWidth_agrees (h.append text) hlen.symm
  rw [decimalsWidth, ← hlen, List.drop_left, List.length_append, Nat.add_left_cancel_iff] at hw
  rw [decimalsWidth, hfraction, List.drop_left, exponentWidth_agrees h hw, List.length_append]

/-- A number keeps its width where the text behind it stays as far as characters of numbers go. -/
theorem numberWidth_agrees (h : Agrees isNumberChar cs ds) (hw : numberWidth (text ++ cs) = text.length) :
    numberWidth (text ++ ds) = text.length := by
  have hle : digitsWidth (text ++ cs) ≤ text.length := by
    rw [numberWidth_eq] at hw
    split at hw <;> omega
  obtain ⟨whole, text, rfl, hlen⟩ := exists_split_at hle
  rw [List.append_assoc] at hw hlen ⊢
  have hwhole := digitsWidth_agrees whole (h.append text) hlen.symm
  rw [numberWidth_eq, ← hlen, List.drop_left] at hw
  rw [numberWidth_eq, hwhole, List.drop_left]
  split at hw
  · rename_i hz
    rw [if_pos hz, hw]
  · rename_i hz
    rw [List.length_append, Nat.add_left_cancel_iff] at hw
    rw [if_neg hz, decimalsWidth_agrees h hw, List.length_append]

end Numbers

/-! ## Quoted strings and block comments -/

section Quoted

theorem quotedRest_bounds (quote : Char) (n : Nat) (cs : List Char) :
    quotedRest quote n cs = 0 ∨ n < quotedRest quote n cs := by
  fun_induction quotedRest quote n cs with
  | case1 | case2 => exact .inl rfl
  | case3 n c rest ih => omega
  | case4 => omega
  | case5 n c rest h hc ih => omega

theorem quotedRest_cons {quote c : Char} (hc : c ≠ '\\') (n : Nat) (rest : List Char) :
    quotedRest quote n (c :: rest) = if c = quote then n + 1 else quotedRest quote (n + 1) rest := by
  rw [quotedRest]
  exact hc

theorem quotedRest_escape (quote c : Char) (n : Nat) (rest : List Char) :
    quotedRest quote n ('\\' :: c :: rest) = quotedRest quote (n + 2) rest := by rw [quotedRest]

/-- What follows a quoted string does not matter. -/
theorem quotedRest_append {quote : Char} {n : Nat} (hn : 0 < n) (xs rest rest' : List Char)
    (h : quotedRest quote n (xs ++ rest) = n + xs.length) : quotedRest quote n (xs ++ rest') = n + xs.length := by
  match xs with
  | [] =>
    have := quotedRest_bounds quote n rest
    rw [List.nil_append, List.length_nil] at h
    omega
  | c :: xs =>
    by_cases hc : c = '\\'
    · subst hc
      cases xs with
      | nil =>
        cases rest with
        | nil =>
          rw [List.append_nil, quotedRest, List.length_singleton] at h
          omega
        | cons d rest =>
          have := quotedRest_bounds quote (n + 2) rest
          rw [List.singleton_append, quotedRest_escape, List.length_singleton] at h
          omega
      | cons d xs =>
        rw [List.cons_append, List.cons_append, quotedRest_escape, List.length_cons, List.length_cons] at h ⊢
        rw [quotedRest_append (by omega) xs rest rest' (by omega)]
        omega
    · rw [List.cons_append, quotedRest_cons hc, List.length_cons] at h ⊢
      split at h
      · rename_i hq
        rw [if_pos hq]
        exact h
      · rename_i hq
        rw [if_neg hq, quotedRest_append (by omega) xs rest rest' (by omega)]
        omega

theorem quotedWidth_append {quote : Char} {text : List Char} (hne : text ≠ []) (rest rest' : List Char)
    (h : quotedWidth quote (text ++ rest) = text.length) : quotedWidth quote (text ++ rest') = text.length := by
  obtain ⟨c, xs, rfl⟩ := List.exists_cons_of_ne_nil hne
  simp only [List.cons_append, quotedWidth, List.length_cons] at h ⊢
  split at h
  · rename_i hc
    rw [if_pos hc, quotedRest_append Nat.one_pos xs rest rest' (by omega)]
    omega
  · omega

theorem commentRest_cons (n : Nat) (c : Char) (rest : List Char) :
    commentRest n (c :: rest) = if c = '*' ∧ rest.head? = some '/' then n + 2 else commentRest (n + 1) rest := by
  by_cases hc : c = '*' ∧ rest.head? = some '/'
  · obtain ⟨rfl, hr⟩ := hc
    obtain ⟨rest, rfl⟩ := List.head?_eq_some_iff.mp hr
    rfl
  · rw [if_neg hc, commentRest]
    intro rest' hstar hrest
    exact hc ⟨hstar, by rw [hrest]; rfl⟩

theorem commentRest_bounds (n : Nat) (cs : List Char) : commentRest n cs = 0 ∨ n < commentRest n cs := by
  induction cs generalizing n with
  | nil => exact .inl rfl
  | cons c cs ih =>
    rw [commentRest_cons]
    split
    · omega
    · have := ih (n + 1)
      omega

/-- What follows a block comment does not matter. -/
theorem commentRest_append {n : Nat} (hn : 0 < n) (xs rest rest' : List Char) (h : commentRest n (xs ++ rest) = n + xs.length) :
    commentRest n (xs ++ rest') = n + xs.length := by
  induction xs generalizing n with
  | nil =>
    have := commentRest_bounds n rest
    rw [List.nil_append, List.length_nil] at h
    omega
  | cons c xs ih =>
    rw [List.cons_append, commentRest_cons, List.length_cons] at h ⊢
    cases xs with
    | nil =>
      -- a comment does not end at one character
      have := commentRest_bounds (n + 1) rest
      rw [List.nil_append, List.length_nil] at h
      split at h <;> omega
    | cons d xs =>
      rw [List.cons_append, List.head?_cons] at h ⊢
      split at h
      · rename_i hc
        rw [if_pos hc]
        exact h
      · rename_i hc
        rw [if_neg hc]
        have := ih (n := n + 1) (by omega) (by rw [List.cons_append]; omega)
        rw [List.cons_append] at this
        omega

theorem blockCommentWidth_cons (c : Char) (cs : List Char) :
    blockCommentWidth (c :: cs) = if c = '/' ∧ cs.head? = some '*' then commentRest 2 cs.tail else 0 := by
  by_cases hc : c = '/' ∧ cs.head? = some '*'
  · obtain ⟨rfl, hs⟩ := hc
    obtain ⟨cs, rfl⟩ := List.head?_eq_some_iff.mp hs
    rfl
  · rw [if_neg hc, blockCommentWidth]
    intro cs' hcons
    rw [List.cons.injEq] at hcons
    exact hc ⟨hcons.1, by rw [hcons.2]; rfl⟩

theorem blockCommentWidth_append {text : List Char} (hne : text ≠ []) (rest rest' : List Char)
    (h : blockCommentWidth (text ++ rest) = text.length) : blockCommentWidth (text ++ rest') = text.length := by
  obtain ⟨c, text, rfl⟩ := List.exists_cons_of_ne_nil hne
  rw [List.cons_append, blockCommentWidth_cons, List.length_cons] at h ⊢
  cases text with
  | nil =>
    have := commentRest_bounds 2 rest.tail
    rw [List.nil_append, List.length_nil] at h
    split at h <;> omega
  | cons d xs =>
    rw [List.cons_append, List.head?_cons, List.tail_cons, List.length_cons] at h ⊢
    split at h
    · rename_i hc
      rw [if_pos hc, commentRest_append Nat.two_pos xs rest rest' (by omega)]
      omega
    · omega

end Quoted

/-! ## Verbatim strings -/

section Verbatim

variable {tag : List Char} {quote : Char}

theorem verbatimRest_cons (quote c : Char) (n fallback : Nat) (rest : List Char) :
    verbatimRest quote n fallback (c :: rest) =
      if c = quote then
        if rest.head? = some quote then verbatimRest quote (n + 2) (n + 1) rest.tail else n + 1
      else verbatimRest quote (n + 1) fallback rest := by
  rw [verbatimRest.eq_def]
  cases rest with
  | nil => simp
  | cons d rest => simp

theorem verbatimRest_of_notMem {n fallback : Nat} {cs : List Char} (h : quote ∉ cs) :
    verbatimRest quote n fallback cs = fallback := by
  induction cs generalizing n with
  | nil => rfl
  | cons c cs ih =>
    rw [List.mem_cons, not_or] at h
    rw [verbatimRest_cons, if_neg (Ne.symm h.1), ih h.2]

theorem fallback_le_verbatimRest {n fallback : Nat} (hf : fallback < n) (cs : List Char) :
    fallback ≤ verbatimRest quote n fallback cs ∧ (quote ∈ cs → n < verbatimRest quote n fallback cs) := by
  fun_induction verbatimRest quote n fallback cs with
  | case1 => simp
  | case2 n fallback rest ih =>
    have := (ih (by omega)).1
    omega
  | case3 => omega
  | case4 => omega
  | case5 n fallback c rest hc ih =>
    obtain ⟨h1, h2⟩ := ih (by omega)
    refine ⟨h1, fun hm => ?_⟩
    have := h2 ((List.mem_cons.mp hm).resolve_left (Ne.symm hc))
    omega

/-- A verbatim string keeps its width, also one that falls back because its end is missing. -/
theorem verbatimRest_inserted (ht : IsTag tag) (hq : isNameChar quote = false) {cs ds : List Char} (h : Inserted tag cs ds)
    {n fallback : Nat} (hf : fallback < n) (xs : List Char)
    (hw : verbatimRest quote n fallback (xs ++ cs) ≤ n + xs.length) :
    verbatimRest quote n fallback (xs ++ ds) = verbatimRest quote n fallback (xs ++ cs) := by
  match xs with
  | [] =>
    have hno : quote ∉ cs := by
      intro hm
      have := (fallback_le_verbatimRest hf cs).2 hm
      rw [List.nil_append, List.length_nil] at hw
      omega
    rw [List.nil_append, List.nil_append, verbatimRest_of_notMem hno, verbatimRest_of_notMem (h.notMem ht hq hno)]
  | c :: xs =>
    have hhead := ((Inserted.refl xs).append h).head?_eq_some_iff ht hq
    rw [List.cons_append, List.cons_append, verbatimRest_cons, verbatimRest_cons] at *
    by_cases hc : c = quote
    · rw [if_pos hc] at hw ⊢
      rw [if_pos hc]
      by_cases hd : (xs ++ cs).head? = some quote
      · rw [if_pos hd] at hw ⊢
        rw [if_pos (hhead.mpr hd)]
        cases xs with
        | nil =>
          obtain ⟨cs', rfl⟩ := List.head?_eq_some_iff.mp hd
          obtain ⟨ds', rfl, h'⟩ := h.exists_cons (Bool.or_eq_false_iff.mp hq).1
          rw [List.nil_append, List.tail_cons, List.length_singleton] at hw
          exact verbatimRest_inserted ht hq h' (by omega) [] (by rw [List.nil_append]; omega)
        | cons d xs =>
          rw [List.cons_append, List.tail_cons, List.length_cons, List.length_cons] at hw
          exact verbatimRest_inserted ht hq h (by omega) xs (by omega)
      · rw [if_neg hd, if_neg fun hd' => hd (hhead.mp hd')]
    · rw [if_neg hc] at hw ⊢
      rw [if_neg hc]
      rw [List.length_cons] at hw
      exact verbatimRest_inserted ht hq h (by omega) xs (by omega)

theorem verbatimWidth_cons (quote c : Char) (cs : List Char) :
    verbatimWidth quote (c :: cs) = if c = '@' ∧ cs.head? = some quote then verbatimRest quote 2 0 cs.tail else 0 := by
  rw [verbatimWidth.eq_def]
  cases cs with
  | nil => simp
  | cons d cs =>
    by_cases hc : c = '@'
    · subst hc
      simp
    · simp [hc]

/-- A verbatim string begins with the sign and its quote. -/
theorem exists_quote {text cs : List Char} (hne : text ≠ []) (hw : verbatimWidth quote (text ++ cs) = text.length) :
    ∃ xs, text = '@' :: quote :: xs := by
  obtain ⟨c, text, rfl⟩ := List.exists_cons_of_ne_nil hne
  rw [List.cons_append, verbatimWidth_cons, List.length_cons] at hw
  split at hw
  · rename_i hc
    obtain ⟨rfl, hd⟩ := hc
    cases text with
    | nil =>
      -- the sign alone is no string: a quote behind it ends further on
      by_cases hm : quote ∈ cs.tail
      · have : 2 < verbatimRest quote 2 0 cs.tail := (fallback_le_verbatimRest Nat.two_pos cs.tail).2 hm
        rw [List.nil_append, List.length_nil] at hw
        omega
      · rw [List.nil_append, verbatimRest_of_notMem hm] at hw
        cases hw
    | cons d xs =>
      obtain rfl : d = quote := Option.some.inj hd
      exact ⟨xs, rfl⟩
  · cases hw

theorem verbatimWidth_quote (quote : Char) (cs : List Char) :
    verbatimWidth quote ('@' :: quote :: cs) = verbatimRest quote 2 0 cs := by
  rw [verbatimWidth_cons, if_pos ⟨rfl, rfl⟩, List.tail_cons]

theorem verbatimWidth_inserted (ht : IsTag tag) (hq : isNameChar quote = false) {text cs ds : List Char} (hne : text ≠ [])
    (h : Inserted tag cs ds) (hw : verbatimWidth quote (text ++ cs) = text.length) :
    verbatimWidth quote (text ++ ds) = text.length := by
  obtain ⟨xs, rfl⟩ := exists_quote hne hw
  rw [List.cons_append, List.cons_append, verbatimWidth_quote, List.length_cons, List.length_cons] at hw ⊢
  rw [verbatimRest_inserted ht hq h Nat.two_pos xs (by omega), hw]

/-- Where no further quote follows, it does not matter what follows. -/
theorem verbatimRest_append {cs ds : List Char} (hc : cs.head? ≠ some quote) (hd : ds.head? ≠ some quote) {n fallback : Nat}
    (hf : fallback < n) (xs : List Char) (hw : verbatimRest quote n fallback (xs ++ cs) = n + xs.length) :
    verbatimRest quote n fallback (xs ++ ds) = n + xs.length := by
  match xs with
  | [] =>
    rw [List.nil_append, List.length_nil] at hw
    by_cases hm : quote ∈ cs
    · have := (fallback_le_verbatimRest hf cs).2 hm
      omega
    · rw [verbatimRest_of_notMem hm] at hw
      omega
  | [x] =>
    rw [List.singleton_append, verbatimRest_cons, List.length_singleton] at *
    by_cases hx : x = quote
    · rw [if_pos hx, if_neg hd]
    · rw [if_neg hx] at hw ⊢
      exact verbatimRest_append hc hd (by omega) [] hw
  | x :: y :: xs =>
    rw [List.cons_append, verbatimRest_cons, List.cons_append, List.head?_cons, List.tail_cons, List.length_cons,
      List.length_cons] at *
    by_cases hx : x = quote
    · rw [if_pos hx] at hw ⊢
      split at hw
      · rename_i hy
        rw [if_pos hy, verbatimRest_append hc hd (by omega) xs (by omega)]
        omega
      · omega
    · rw [if_neg hx] at hw ⊢
      have hrest : verbatimRest quote (n + 1) fallback (y :: xs ++ ds) = n + 1 + (y :: xs).length :=
        verbatimRest_append hc hd (by omega) (y :: xs) (by rw [List.cons_append, List.length_cons]; omega)
      rw [List.cons_append, List.length_cons] at hrest
      omega

theorem verbatimWidth_append {text cs ds : List Char} (hne : text ≠ []) (hc : cs.head? ≠ some quote)
    (hd : ds.head? ≠ some quote) (hw : verbatimWidth quote (text ++ cs) = text.length) :
    verbatimWidth quote (text ++ ds) = text.length := by
  obtain ⟨xs, rfl⟩ := exists_quote hne hw
  rw [List.cons_append, List.cons_append, verbatimWidth_quote, List.length_cons, List.length_cons] at hw ⊢
  rw [verbatimRest_append hc hd Nat.two_pos xs (by omega)]
  omega

end Verbatim

/-! ## Text blocks -/

section Blocks

theorem blockRest_cons (n : Nat) (c : Char) (rest : List Char) :
    blockRest n (c :: rest) =
      if blockCloseWidth (c :: rest) ≠ 0 then n + blockCloseWidth (c :: rest) else blockRest (n + 1) rest := rfl

theorem blockRest_bounds (n : Nat) (cs : List Char) : blockRest n cs = 0 ∨ n < blockRest n cs := by
  induction cs generalizing n with
  | nil => exact .inl rfl
  | cons c cs ih =>
    rw [blockRest_cons]
    split
    · omega
    · have := ih (n + 1)
      omega

theorem blockCloseWidth_of_ne {c : Char} (hc : c ≠ '\n') (cs : List Char) : blockCloseWidth (c :: cs) = 0 := by
  unfold blockCloseWidth
  split
  · simp_all
  · rfl

/-- A text without the character `c` at the front ends before the first `c`. -/
theorem prefix_append_of_mem {c : Char} {us zs : List Char} (hz : c ∈ zs) (hu : c ∉ us) (rest : List Char) :
    us <+: zs ++ rest ↔ us <+: zs := by
  induction us generalizing zs with
  | nil => simp
  | cons u us ih =>
    rw [List.mem_cons, not_or] at hu
    cases zs with
    | nil => cases hz
    | cons z zs =>
      rw [List.cons_append, List.cons_prefix_cons, List.cons_prefix_cons]
      refine and_congr_right fun huz => ih ?_ hu.2
      exact (List.mem_cons.mp hz).resolve_left fun hcz => hu.1 (hcz.trans huz.symm)

/-- The indent of a line that goes on inside `xs`. -/
theorem takeWhile_append_of_lt {p : Char → Bool} {xs : List Char} (h : (xs.takeWhile p).length < xs.length) (rest : List Char) :
    (xs ++ rest).takeWhile p = xs.takeWhile p := by
  rw [List.takeWhile_append, if_neg (Nat.ne_of_lt h)]

theorem blockCloseWidth_append {xs : List Char} (h : (xs.takeWhile isIndent).length < xs.length) (rest : List Char) :
    blockCloseWidth ('\n' :: (xs ++ rest)) =
      if bars.isPrefixOf (xs.drop (xs.takeWhile isIndent).length ++ rest) then
        1 + (xs.takeWhile isIndent).length + 3
      else 0 := by
  rw [blockCloseWidth, takeWhile_append_of_lt h, List.drop_append_of_le_length (Nat.le_of_lt h)]

theorem length_takeWhile_lt {p : Char → Bool} {c : Char} {xs : List Char} (hc : c ∈ xs) (hp : p c = false) :
    (xs.takeWhile p).length < xs.length := by
  have hpre := List.takeWhile_prefix p (l := xs)
  refine Nat.lt_of_le_of_ne hpre.length_le ?_
  intro heq
  rw [← hpre.eq_of_length heq] at hc
  rw [List.mem_takeWhile_imp hc] at hp
  cases hp

/-- A line that is not the last one of `xs` does not close a block with what follows. -/
theorem blockCloseWidth_append_of_mem {xs : List Char} (h : '\n' ∈ xs) (c : Char) (rest rest' : List Char) :
    blockCloseWidth (c :: (xs ++ rest)) = blockCloseWidth (c :: (xs ++ rest')) := by
  by_cases hc : c = '\n'
  · subst hc
    have hlt : (xs.takeWhile isIndent).length < xs.length := length_takeWhile_lt h (by decide)
    have hmem : '\n' ∈ xs.drop (xs.takeWhile isIndent).length := by
      rw [← List.take_append_drop (xs.takeWhile isIndent).length xs, List.mem_append] at h
      refine h.resolve_left ?_
      intro hm
      rw [← List.prefix_iff_eq_take.mp (List.takeWhile_prefix isIndent)] at hm
      have hp : isIndent '\n' = true := List.mem_takeWhile_imp hm
      cases hp
    have hbars : ∀ after, bars.isPrefixOf (xs.drop (xs.takeWhile isIndent).length ++ after) =
        bars.isPrefixOf (xs.drop (xs.takeWhile isIndent).length) := by
      intro after
      rw [Bool.eq_iff_iff, List.isPrefixOf_iff_prefix, List.isPrefixOf_iff_prefix]
      exact prefix_append_of_mem hmem (by decide) after
    rw [blockCloseWidth_append hlt, blockCloseWidth_append hlt, hbars, hbars]
  · rw [blockCloseWidth_of_ne hc, blockCloseWidth_of_ne hc]

/-- What follows the line that closes a block does not matter. -/
theorem blockCloseWidth_append_of_length {xs : List Char} (c : Char) (rest rest' : List Char)
    (h : blockCloseWidth (c :: (xs ++ rest)) = xs.length + 1) : blockCloseWidth (c :: (xs ++ rest')) = xs.length + 1 := by
  by_cases hc : c = '\n'
  · subst hc
    have hlt : (xs.takeWhile isIndent).length < xs.length := by
      by_contra hge
      have hlen : (xs.takeWhile isIndent).length = xs.length :=
        Nat.le_antisymm (List.takeWhile_prefix isIndent).length_le (Nat.le_of_not_lt hge)
      rw [blockCloseWidth, List.takeWhile_append, if_pos hlen, List.length_append] at h
      split at h <;> omega
    rw [blockCloseWidth_append hlt] at h ⊢
    split at h
    · rename_i hb
      have hlen : (xs.drop (xs.takeWhile isIndent).length).length = bars.length := by
        rw [List.length_drop]
        show _ = 3
        omega
      have heq : bars = xs.drop (xs.takeWhile isIndent).length :=
        (List.prefix_of_prefix_length_le (List.isPrefixOf_iff_prefix.mp hb) (List.prefix_append _ rest)
          (Nat.le_of_eq hlen.symm)).eq_of_length hlen.symm
      rw [← heq, if_pos (List.isPrefixOf_iff_prefix.mpr (List.prefix_append bars rest')), h]
    · omega
  · rw [blockCloseWidth_of_ne hc] at h
    omega

theorem newline_mem_of_blockRest {n : Nat} (hn : 0 < n) (xs rest : List Char)
    (h : blockRest n (xs ++ rest) = n + xs.length) : '\n' ∈ xs := by
  induction xs generalizing n with
  | nil =>
    have := blockRest_bounds n rest
    rw [List.nil_append, List.length_nil] at h
    omega
  | cons c xs ih =>
    rw [List.cons_append, blockRest_cons, List.length_cons] at h
    by_cases hc : c = '\n'
    · rw [hc]
      exact List.mem_cons_self
    · rw [blockCloseWidth_of_ne hc, if_neg (by simp)] at h
      exact List.mem_cons_of_mem c (ih (n := n + 1) (by omega) (by omega))

/-- What follows the body of a block does not matter. -/
theorem blockRest_append {n : Nat} (hn : 0 < n) (xs rest rest' : List Char) (h : blockRest n (xs ++ rest) = n + xs.length) :
    blockRest n (xs ++ rest') = n + xs.length := by
  induction xs generalizing n with
  | nil =>
    have := blockRest_bounds n rest
    rw [List.nil_append, List.length_nil] at h
    omega
  | cons c xs ih =>
    rw [List.cons_append, blockRest_cons, List.length_cons] at h ⊢
    split at h
    · rename_i hclose
      have hlen : blockCloseWidth (c :: (xs ++ rest)) = xs.length + 1 := by omega
      rw [blockCloseWidth_append_of_length c rest rest' hlen, if_pos (Nat.succ_ne_zero _)]
    · rename_i hclose
      have hmem := newline_mem_of_blockRest (n := n + 1) (by omega) xs rest (by omega)
      rw [blockCloseWidth_append_of_mem hmem c rest' rest, if_neg hclose, ih (n := n + 1) (by omega) (by omega)]
      omega

theorem lineBreakWidth_append {xs : List Char} (hne : xs ≠ []) (rest rest' : List Char)
    (h : lineBreakWidth (xs ++ rest) = xs.length) : lineBreakWidth (xs ++ rest') = xs.length := by
  match xs with
  | [] => exact absurd rfl hne
  | [c] =>
    unfold lineBreakWidth at h ⊢
    split at h <;> simp_all
  | [c, d] =>
    unfold lineBreakWidth at h ⊢
    split at h <;> simp_all
  | c :: d :: e :: xs =>
    unfold lineBreakWidth at h
    split at h <;> simp at h

/-- What follows the first line of a block does not matter. -/
theorem blockOpenWidth_append {xs : List Char} (hne : xs ≠ []) (rest rest' : List Char)
    (h : blockOpenWidth (xs ++ rest) = xs.length) : blockOpenWidth (xs ++ rest') = xs.length := by
  have hhead : ∀ after, (xs ++ after).head? = xs.head? := by
    intro after
    rw [List.head?_append, Option.or_of_isSome (List.isSome_head?.mpr hne)]
  unfold blockOpenWidth at h ⊢
  rw [hhead] at h ⊢
  generalize (if xs.head? = some '-' then 1 else 0) = dash at h ⊢
  dsimp only at h ⊢
  split at h
  · exact absurd (List.length_eq_zero_iff.mp h.symm) hne
  · rename_i hline
    -- the dash, the indent and the line break
    obtain ⟨front, xs, rfl, rfl⟩ := exists_split_at (show dash ≤ xs.length by omega)
    rw [List.append_assoc, List.drop_left, List.drop_length_add_append, List.length_append] at h
    rw [List.append_assoc, List.drop_left, List.drop_length_add_append] at hline
    rw [List.append_assoc, List.drop_left, List.drop_length_add_append, List.length_append]
    obtain ⟨indent, xs, rfl, hindent⟩ := exists_split_at (show ((xs ++ rest).takeWhile isIndent).length ≤ xs.length by omega)
    rw [List.append_assoc] at hindent h hline ⊢
    rw [← hindent, List.drop_left, List.length_append] at h
    rw [← hindent, List.drop_left] at hline
    have hbreak : xs ≠ [] := by
      rintro rfl
      rw [List.length_nil] at h
      omega
    have hindent' : ((indent ++ (xs ++ rest')).takeWhile isIndent).length = indent.length := by
      obtain ⟨hall, hstop⟩ := length_takeWhile_append.mp hindent.symm
      refine length_takeWhile_append.mpr ⟨hall, ?_⟩
      rw [List.head?_append, Option.or_of_isSome (List.isSome_head?.mpr hbreak)] at hstop ⊢
      exact hstop
    rw [hindent', List.drop_left, lineBreakWidth_append hbreak rest rest' (by omega), if_neg, List.length_append]
    · omega
    · have := List.length_pos_iff.mpr hbreak
      omega

theorem textBlockWidth_bars (cs : List Char) :
    textBlockWidth (bars ++ cs) =
      if blockOpenWidth cs = 0 then 0 else blockRest (3 + blockOpenWidth cs) (cs.drop (blockOpenWidth cs)) := by
  have hdrop : ∀ n, (bars ++ cs).drop (3 + n) = cs.drop n := by
    intro n
    show (bars ++ cs).drop (bars.length + n) = cs.drop n
    exact List.drop_length_add_append n
  rw [textBlockWidth, if_pos (List.isPrefixOf_iff_prefix.mpr (List.prefix_append bars cs))]
  simp only [hdrop, show (bars ++ cs).drop 3 = cs from hdrop 0]

/-- A text block is more than its first bars. -/
theorem exists_bars {text rest : List Char} (hne : text ≠ []) (h : textBlockWidth (text ++ rest) = text.length) :
    ∃ xs, text = bars ++ xs := by
  have hpos := List.length_pos_iff.mpr hne
  by_cases hb : bars <+: text ++ rest
  · obtain ⟨cs, hcs⟩ := hb
    have hbounds := blockRest_bounds (3 + blockOpenWidth cs) (cs.drop (blockOpenWidth cs))
    rw [← hcs, textBlockWidth_bars] at h
    have hlen : bars.length ≤ text.length := by
      show 3 ≤ _
      split at h <;> omega
    obtain ⟨xs, hxs⟩ := List.prefix_of_prefix_length_le ⟨cs, hcs⟩ (List.prefix_append text rest) hlen
    exact ⟨xs, hxs.symm⟩
  · rw [textBlockWidth, if_neg (by rwa [List.isPrefixOf_iff_prefix])] at h
    omega

/-- What follows a text block does not matter. -/
theorem textBlockWidth_append {text : List Char} (hne : text ≠ []) (rest rest' : List Char)
    (h : textBlockWidth (text ++ rest) = text.length) : textBlockWidth (text ++ rest') = text.length := by
  obtain ⟨xs, rfl⟩ := exists_bars hne h
  have hbounds := blockRest_bounds (3 + blockOpenWidth (xs ++ rest)) ((xs ++ rest).drop (blockOpenWidth (xs ++ rest)))
  have hlen : (bars ++ xs).length = 3 + xs.length := List.length_append
  rw [List.append_assoc, textBlockWidth_bars, hlen] at h ⊢
  split at h
  · omega
  · rename_i hopen
    obtain ⟨opening, xs, rfl, hopening⟩ := exists_split_at (show blockOpenWidth (xs ++ rest) ≤ xs.length by omega)
    rw [List.append_assoc] at h hopening hopen ⊢
    rw [← hopening, List.drop_left, List.length_append] at h
    have hopening' : blockOpenWidth (opening ++ (xs ++ rest')) = opening.length := by
      refine blockOpenWidth_append ?_ (xs ++ rest) (xs ++ rest') hopening.symm
      rintro rfl
      exact hopen hopening.symm
    rw [hopening', List.drop_left, if_neg (hopening ▸ hopen), List.length_append, blockRest_append (by omega) xs rest rest' (by omega)]
    omega

end Blocks

/-! ## Comments that end with the line -/

section Lines

variable {text cs ds : List Char}

theorem lineCommentWidth_cons (c : Char) (cs : List Char) :
    lineCommentWidth (c :: cs) =
      if c = '/' ∧ cs.head? = some '/' then 2 + (cs.tail.takeWhile (· ≠ '\n')).length else 0 := by
  by_cases hc : c = '/' ∧ cs.head? = some '/'
  · obtain ⟨rfl, hs⟩ := hc
    obtain ⟨cs, rfl⟩ := List.head?_eq_some_iff.mp hs
    rfl
  · rw [if_neg hc, lineCommentWidth]
    intro cs' hcons
    rw [List.cons.injEq] at hcons
    exact hc ⟨hcons.1, by rw [hcons.2]; rfl⟩

/-- A line comment begins with both of its slashes. -/
theorem exists_slashes (hne : text ≠ []) (hw : lineCommentWidth (text ++ cs) = text.length) :
    ∃ xs, text = '/' :: '/' :: xs := by
  obtain ⟨c, text, rfl⟩ := List.exists_cons_of_ne_nil hne
  rw [List.cons_append, lineCommentWidth_cons, List.length_cons] at hw
  split at hw
  · rename_i hc
    cases text with
    | nil =>
      rw [List.length_nil] at hw
      omega
    | cons d xs =>
      obtain ⟨rfl, hd⟩ := hc
      rw [List.cons_append, List.head?_cons, Option.some.injEq] at hd
      exact ⟨xs, by rw [hd]⟩
  · omega

theorem lineCommentWidth_behind (hne : text ≠ []) (hstop : cs.head?.any (· ≠ '\n') = false → ds.head?.any (· ≠ '\n') = false)
    (hw : lineCommentWidth (text ++ cs) = text.length) : lineCommentWidth (text ++ ds) = text.length := by
  obtain ⟨xs, rfl⟩ := exists_slashes hne hw
  simp only [List.cons_append, lineCommentWidth, List.length_cons] at hw ⊢
  have hline : ((xs ++ ds).takeWhile (· ≠ '\n')).length = xs.length := length_takeWhile_behind hstop (by omega)
  omega

theorem hashCommentWidth_cons (c : Char) (cs : List Char) :
    hashCommentWidth (c :: cs) = if c = '#' then 1 + (cs.takeWhile (· ≠ '\n')).length else 0 := by
  by_cases hc : c = '#'
  · subst hc
    rfl
  · rw [if_neg hc, hashCommentWidth]
    intro cs' hcons
    exact hc (List.cons.inj hcons).1

theorem hashCommentWidth_behind (hne : text ≠ []) (hstop : cs.head?.any (· ≠ '\n') = false → ds.head?.any (· ≠ '\n') = false)
    (hw : hashCommentWidth (text ++ cs) = text.length) : hashCommentWidth (text ++ ds) = text.length := by
  obtain ⟨c, xs, rfl⟩ := List.exists_cons_of_ne_nil hne
  rw [List.cons_append, hashCommentWidth_cons, List.length_cons] at hw ⊢
  split at hw
  · rename_i hc
    have hline : ((xs ++ ds).takeWhile (· ≠ '\n')).length = xs.length := length_takeWhile_behind hstop (by omega)
    rw [if_pos hc]
    omega
  · omega

end Lines

end JsonnetLocals
