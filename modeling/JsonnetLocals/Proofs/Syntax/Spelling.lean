/-
  JsonnetLocals.Proofs.Syntax.Spelling — tokens in front of layout.

  Behind a token the text may change from some layout on. A token that is delimited by what follows
  (`Terminal.Delimited`) is taken all the same (`Terminal.first_of_agrees`):
  - it keeps its width (`Terminal.width_of_agrees`): no spelling goes on with layout,
  - no terminal in front of it in rank matches now. Of those that look further ahead, a block comment
    would have to begin with the slash, and a verbatim string is of the other kind
    (`Terminal.width_eq_zero_of_ends`).

  A spelling is whole when its terminal takes all of it (`Spelled.Whole`). A whole spelling is taken as
  it stands wherever its terminal is admitted, at the end of the text and in front of layout
  (`Terminal.first_of_whole`), so spaces may join whole spellings (`joined`).
-/

import JsonnetLocals.Proofs.Syntax.Relex
import JsonnetLocals.Proofs.Syntax.Words

namespace JsonnetLocals

open Lexeme

def LayoutNext (rest : List Char) : Prop := ∀ c ∈ rest.head?, isLayout c = true

theorem layoutNext_nil : LayoutNext [] := nofun

theorem layoutNext_cons {c : Char} (hc : isLayout c = true) (rest : List Char) : LayoutNext (c :: rest) :=
  fun _ hd => Option.some.inj hd ▸ hc

theorem mem_of_isLayout {c : Char} (h : isLayout c = true) : c ∈ [' ', '\t', '\r', '\n'] := by
  simpa [isLayout, or_assoc] using h

/-- What holds of the four blanks holds of layout. -/
theorem of_isLayout {p : Char → Bool} (hall : [' ', '\t', '\r', '\n'].all p = true) {c : Char} (h : isLayout c = true) :
    p c = true := List.all_eq_true.mp hall c (mem_of_isLayout h)

/-- What holds of no layout holds not of the next character. -/
theorem LayoutNext.head?_any {rest : List Char} {p : Char → Bool} (h : LayoutNext rest) (hp : ∀ c, p c = true → isLayout c = false) :
    rest.head?.any p = false := by
  cases rest with
  | nil => rfl
  | cons c rest =>
    have hc : isLayout c = true := h c rfl
    rw [List.head?_cons, Option.any_some]
    by_contra hpc
    rw [hp c (by simpa using hpc)] at hc
    cases hc

/-- Up to layout, a text agrees with any text that goes on the same way. -/
theorem LayoutNext.agrees {rest : List Char} (h : LayoutNext rest) (front cs : List Char) :
    Agrees (!isLayout ·) (front ++ cs) (front ++ rest) :=
  .append front (.stop (h.head?_any fun c hc => by simpa using hc))

/-! ## The terminal that is taken -/

namespace Terminal

variable {t u : Terminal} {c : Char} {text rest cs ds : List Char}

theorem mem_ranked (t : Terminal) : t ∈ ranked := by
  cases t with
  | symbol s => exact List.mem_append_right _ (List.mem_map_of_mem (symbol_mem_ranked s))
  | _ => decide

theorem toNat_lt_of_isDigit (hc : isDigit c = true) : c.toNat < 128 := by
  rw [isDigit, Bool.and_eq_true, decide_eq_true_eq, decide_eq_true_eq] at hc
  exact Nat.lt_of_le_of_lt hc.2 (by decide)

/-- Only a number begins with a digit. -/
theorem eq_number (hc : isDigit c = true) (h : t.beginsWith c = true) : t = number := by
  have hlt := toNat_lt_of_isDigit hc
  have hall : ∀ n < 128, isDigit (Char.ofNat n) = true → ∀ t ∈ ranked, t.beginsWith (Char.ofNat n) = true → t = number := by
    decide +kernel
  rw [← Char.ofNat_toNat c] at hc h
  exact hall c.toNat hlt hc t (mem_ranked t) h

/-- Of what is not skipped, only the symbol `/` begins with a slash. -/
theorem eq_slash (ht : t.isIgnored = false) (h : t.beginsWith '/' = true) : t = symbol .slash := by
  have hall : ∀ t ∈ ranked, t.isIgnored = false → t.beginsWith '/' = true → t = symbol .slash := by decide +kernel
  exact hall t (mem_ranked t) ht h

/-- Only verbatim strings begin with `@`. -/
theorem eq_verbatim (h : t.beginsWith '@' = true) : t = verbatimDouble ∨ t = verbatimSingle := by
  cases t with
  | symbol s => cases s <;> cases h
  | verbatimDouble => exact .inl rfl
  | verbatimSingle => exact .inr rfl
  | _ => cases h

/-- What is skipped begins with characters of its own, a slash apart. -/
theorem beginsWith_eq_false (ht : t.isIgnored = false) (hc : isLayout c = true ∨ c = '#') : t.beginsWith c = false := by
  have hall : ([' ', '\t', '\r', '\n', '#'].all fun c => !t.beginsWith c) = true := by
    cases t with
    | symbol s => cases s <;> rfl
    | blockComment | lineComment | whitespace | hashComment => cases ht
    | _ => rfl
  have hmem : c ∈ [' ', '\t', '\r', '\n', '#'] := by
    rcases hc with hc | rfl
    · exact List.mem_append_left ['#'] (mem_of_isLayout hc)
    · decide
  simpa using List.all_eq_true.mp hall c hmem

/-- One kind of verbatim string is not the other. -/
theorem verbatimWidth_other {q q' : Char} (hq : q ≠ q') (cs : List Char) : verbatimWidth q ('@' :: q' :: cs) = 0 := by
  rw [verbatimWidth_cons, if_neg fun h => hq (Option.some.inj h.2).symm]

/-- Nothing that could be part of the token comes next: no word character behind a name, no quote behind a
    verbatim string, no star behind a slash. -/
def Delimited (t : Terminal) (rest : List Char) : Prop :=
  match t with
  | name => rest.head?.any Text.isWord = false
  | verbatimDouble => rest.head? ≠ some '"'
  | verbatimSingle => rest.head? ≠ some '\''
  | symbol .slash => rest.head? ≠ some '*'
  | _ => True

theorem delimited_nil (t : Terminal) : t.Delimited [] := by
  unfold Delimited
  split <;> trivial

theorem isWord_of_isLayout (hc : isLayout c = true) : Text.isWord c = false := by
  have hno : (!Text.isWord c) = true := of_isLayout (p := fun c => !Text.isWord c) (by decide +kernel) hc
  simpa using hno

theorem isLayout_of_isWord (hc : Text.isWord c = true) : (!isLayout c) = true := by
  rw [Bool.not_eq_true']
  by_contra hlayout
  rw [isWord_of_isLayout (Bool.not_eq_false _ ▸ hlayout)] at hc
  cases hc

theorem isWord_of_isNameChar (hc : isNameChar c = true) : Text.isWord c = true := by
  rw [isNameChar, Bool.or_eq_true] at hc
  rcases hc with hc | hc
  · exact isWord_of_isNameStart hc
  · have hall : ∀ n < 128, isDigit (Char.ofNat n) = true → Text.isWord (Char.ofNat n) = true := by decide +kernel
    have hlt := toNat_lt_of_isDigit hc
    rw [← Char.ofNat_toNat c] at hc ⊢
    exact hall c.toNat hlt hc

/-- A token that is delimited keeps its width where the text behind it stays up to layout. -/
theorem width_of_agrees (ht : t.isIgnored = false) (hne : text ≠ []) (hd : t.Delimited cs) (h : Agrees (!isLayout ·) cs ds)
    (hw : t.width (text ++ cs) = text.length) : t.width (text ++ ds) = text.length := by
  cases t with
  | name =>
    have hword : ds.head?.any Text.isWord = false := h.head?_any (fun _ => isLayout_of_isWord) hd
    obtain ⟨hstart, hall, hstop, hreserved⟩ := (nameWidth_append hne).mp hw
    have hstop' : ds.head?.any isNameChar = false := Agrees.any_eq_false_of_imp (fun _ => isWord_of_isNameChar) hword
    refine (nameWidth_append hne).mpr ⟨hstart, hall, hstop', ?_⟩
    rw [startsReserved_append (hword.trans (Eq.symm hd)) hstop hstop']
    exact hreserved
  | textBlock => exact textBlockWidth_append hne cs ds hw
  | number =>
    refine numberWidth_agrees (h.mono fun c hc => ?_) hw
    rw [Bool.not_eq_true']
    by_contra hlayout
    have hno : (!isNumberChar c) = true :=
      of_isLayout (p := fun c => !isNumberChar c) (by decide) (Bool.not_eq_false _ ▸ hlayout)
    rw [hc] at hno
    cases hno
  | stringDouble => exact quotedWidth_append hne cs ds hw
  | stringSingle => exact quotedWidth_append hne cs ds hw
  | verbatimDouble => exact verbatimWidth_append hne hd (h.head?_ne rfl hd) hw
  | verbatimSingle => exact verbatimWidth_append hne hd (h.head?_ne rfl hd) hw
  | symbol s => exact (symbolWidth_eq_iff hne).mpr ((symbolWidth_eq_iff hne).mp hw)
  | blockComment | lineComment | whitespace | hashComment => cases ht

theorem all_spelling : ∀ s ∈ Symbol.ranked, s.spelling.toList.all (!isLayout ·) = true := by decide

/-- What ends further on does not match in front of it either: a block comment behind a slash, the other kind
    of verbatim string. -/
theorem width_eq_zero_of_ends (hu : u = blockComment ∨ u = verbatimDouble ∨ u = verbatimSingle) (ht : t.isIgnored = false)
    (hne : text ≠ []) (hd : t.Delimited cs) (h : Agrees (!isLayout ·) cs ds) (hw : t.width (text ++ cs) = text.length)
    (hz : u.width (text ++ cs) = 0) : u.width (text ++ ds) = 0 := by
  obtain ⟨c, xs, rfl⟩ := List.exists_cons_of_ne_nil hne
  have hbegins := beginsWith_of_width hw
  have hother : t ≠ u := by
    rintro rfl
    rw [hz] at hw
    cases hw
  by_cases hb : u.beginsWith c = true
  · rcases hu with rfl | rfl | rfl
    · obtain rfl : c = '/' := by simpa [beginsWith] using hb
      obtain rfl := eq_slash ht hbegins
      obtain rfl : xs = [] := (List.cons.inj ((symbolWidth_eq_iff hne).mp hw)).2.symm
      rw [List.singleton_append, width, blockCommentWidth_cons, if_neg fun hc => h.head?_ne rfl hd hc.2]
    · obtain rfl : c = '@' := by simpa [beginsWith] using hb
      obtain rfl := (eq_verbatim hbegins).resolve_left hother
      obtain ⟨xs, hxs⟩ := exists_quote hne hw
      rw [hxs, width, List.cons_append, List.cons_append, verbatimWidth_other (by decide)]
    · obtain rfl : c = '@' := by simpa [beginsWith] using hb
      obtain rfl := (eq_verbatim hbegins).resolve_right hother
      obtain ⟨xs, hxs⟩ := exists_quote hne hw
      rw [hxs, width, List.cons_append, List.cons_append, verbatimWidth_other (by decide)]
  · exact width_eq_zero (Bool.not_eq_true _ ▸ hb) (xs ++ ds)

/-- A token that is delimited is taken also where the text behind it stays up to layout only. -/
theorem first_of_agrees {ctx : Context} (ht : t.isIgnored = false) (hne : text ≠ []) (hd : t.Delimited cs)
    (h : Agrees (!isLayout ·) cs ds) (hf : first ctx.admits (text ++ cs) = some (t, text.length)) :
    first ctx.admits (text ++ ds) = some (t, text.length) := by
  obtain ⟨hadmits, hw, hpos, earlier, later, hranked, hzero⟩ := first_eq_some_iff.mp hf
  refine first_eq_some_iff.mpr ⟨hadmits, width_of_agrees ht hne hd h hw, hpos, earlier, later, hranked, fun u hu hau => ?_⟩
  have hz := hzero u hu hau
  refine width_eq_zero_behind hau hadmits hne h all_spelling (h.head?_any fun _ => isLayout_of_isWord)
    (fun hends => width_eq_zero_of_ends hends ht hne hd h hw hz) hw ?_ hz
  rintro rfl
  exact kwImport_width hf

/-! ## Whole spellings -/

theorem width_append_nil (hw : t.width text = text.length) : t.width (text ++ []) = text.length := by
  rw [List.append_nil]
  exact hw

theorem beginsWith_of_whole {xs : List Char} (hw : t.width (c :: xs) = (c :: xs).length) : t.beginsWith c = true :=
  beginsWith_of_width (width_append_nil hw)

theorem spelling_of_whole {s : Symbol} (hne : text ≠ []) (hw : (symbol s).width text = text.length) :
    s.spelling.toList = text := (symbolWidth_eq_iff hne).mp (width_append_nil hw)

/-- Whether a terminal that comes first in rank is a different one, and does not begin another symbol. -/
def outranks : Terminal → Terminal → Bool
  | symbol s, symbol s' => !s.spelling.toList.isPrefixOf s'.spelling.toList
  | symbol _, _ => false
  | u, t => u ≠ t

theorem pairwise_outranks : ranked.Pairwise fun u t => outranks u t = true := by decide +kernel

theorem ne_of_outranks (h : outranks u t = true) : u ≠ t := by
  rintro rfl
  cases u with
  | symbol s =>
    rw [outranks, List.isPrefixOf_iff_prefix.mpr (List.prefix_refl _)] at h
    cases h
  | _ => cases h

/-- A keyword by itself is no name. -/
theorem startsReserved_keyword :
    ∀ s ∈ Symbol.ranked, s.spelling.toList.head?.any isNameStart = true → startsReserved s.spelling.toList = true := by
  decide

/-- No terminal that comes first in rank matches a whole spelling by itself. -/
theorem width_eq_zero_of_whole {ctx : Context} (hu : ctx.admits u = true) (hadmits : ctx.admits t = true)
    (hrank : outranks u t = true) (ht : t.isIgnored = false) (hne : text ≠ []) (hw : t.width text = text.length) :
    u.width text = 0 := by
  obtain ⟨c, xs, rfl⟩ := List.exists_cons_of_ne_nil hne
  have hbegins := beginsWith_of_whole hw
  have hother : t ≠ u := Ne.symm (ne_of_outranks hrank)
  by_cases hb : u.beginsWith c = true
  · cases u with
    | name =>
      obtain ⟨s, rfl⟩ := eq_symbol hb hbegins hother
      have hspelling : s.spelling.toList = c :: xs := spelling_of_whole hne hw
      have hreserved := startsReserved_keyword s (symbol_mem_ranked s) (by rw [hspelling]; exact hb)
      rw [hspelling] at hreserved
      rw [width, nameWidth, hreserved]
      simp
    | textBlock =>
      obtain rfl : c = '|' := by simpa [beginsWith] using hb
      exact absurd (eq_textBlock hu hadmits hbegins) hother
    | number => exact absurd (eq_number hb hbegins) hother
    | stringDouble =>
      obtain rfl : c = '"' := by simpa [beginsWith] using hb
      exact absurd (eq_string (.inl ⟨rfl, rfl⟩) hbegins) hother
    | stringSingle =>
      obtain rfl : c = '\'' := by simpa [beginsWith] using hb
      exact absurd (eq_string (.inr ⟨rfl, rfl⟩) hbegins) hother
    | blockComment | lineComment =>
      obtain rfl : c = '/' := by simpa [beginsWith] using hb
      obtain rfl := eq_slash ht hbegins
      obtain rfl : xs = [] := (List.cons.inj (spelling_of_whole hne hw)).2.symm
      rfl
    | verbatimDouble =>
      obtain rfl : c = '@' := by simpa [beginsWith] using hb
      obtain rfl := (eq_verbatim hbegins).resolve_left hother
      obtain ⟨xs, hxs⟩ := exists_quote hne (width_append_nil hw)
      rw [hxs, width, verbatimWidth_other (by decide)]
    | verbatimSingle =>
      obtain rfl : c = '@' := by simpa [beginsWith] using hb
      obtain rfl := (eq_verbatim hbegins).resolve_right hother
      obtain ⟨xs, hxs⟩ := exists_quote hne (width_append_nil hw)
      rw [hxs, width, verbatimWidth_other (by decide)]
    | whitespace =>
      rw [beginsWith_eq_false ht (.inl hb)] at hbegins
      cases hbegins
    | hashComment =>
      rw [beginsWith_eq_false ht (.inr (by simpa [beginsWith] using hb))] at hbegins
      cases hbegins
    | symbol s =>
      cases t with
      | symbol s' =>
        rw [width, symbolWidth, if_neg]
        intro hfront
        rw [← (spelling_of_whole hne hw : s'.spelling.toList = c :: xs)] at hfront
        rw [outranks, hfront] at hrank
        cases hrank
      | _ => cases hrank
  · exact width_eq_zero (Bool.not_eq_true _ ▸ hb) xs

/-- A whole spelling is taken where its terminal is admitted, at the end of the text and in front of layout. -/
theorem first_of_whole {ctx : Context} (hadmits : ctx.admits t = true) (ht : t.isIgnored = false) (hne : text ≠ [])
    (hw : t.width text = text.length) (h : LayoutNext rest) : first ctx.admits (text ++ rest) = some (t, text.length) := by
  obtain ⟨earlier, later, hranked⟩ := List.append_of_mem (mem_ranked t)
  refine first_of_agrees ht hne (delimited_nil t) (h.agrees [] []) ?_
  refine first_eq_some_iff.mpr ⟨hadmits, width_append_nil hw, ?_, earlier, later, hranked, ?_⟩
  · exact fun hzero => hne (List.length_eq_zero_iff.mp hzero)
  · intro u hu hau
    have hpairs := pairwise_outranks
    rw [hranked, List.pairwise_append] at hpairs
    rw [List.append_nil]
    exact width_eq_zero_of_whole hau hadmits (hpairs.2.2 u hu t List.mem_cons_self) ht hne hw

/-- The space in front of a whole spelling is skipped. -/
theorem first_space {ctx : Context} (ht : t.isIgnored = false) (hne : text ≠ []) (hw : t.width text = text.length) :
    first ctx.admits (' ' :: (text ++ rest)) = some (whitespace, 1) := by
  obtain ⟨c, xs, rfl⟩ := List.exists_cons_of_ne_nil hne
  have hlayout : isLayout c = false := by
    by_contra hc
    have hbegins := beginsWith_eq_false ht (.inl (Bool.not_eq_false _ ▸ hc))
    rw [beginsWith_of_whole hw] at hbegins
    cases hbegins
  have hwidth : whitespace.width (' ' :: (c :: xs ++ rest)) = 1 := by
    show ((' ' :: c :: (xs ++ rest)).takeWhile isLayout).length = 1
    rw [List.takeWhile_cons_of_pos rfl, List.takeWhile_cons_of_neg (by rw [hlayout]; decide)]
    rfl
  have hfirst := first_of_isIgnored ctx (t := whitespace) rfl (by rw [hwidth]; decide)
  rwa [hwidth] at hfirst

end Terminal

/-! ## Tokens without places -/

structure Spelled where
  terminal : Terminal
  text : List Char
  deriving DecidableEq

def Word.spelled (w : Word) : Spelled := ⟨w.token.terminal, w.text⟩

/-- The terminal takes the whole spelling; none takes an empty one. -/
def Spelled.Whole (x : Spelled) : Prop := x.text ≠ [] ∧ x.terminal.width x.text = x.text.length

instance (x : Spelled) : Decidable x.Whole := inferInstanceAs (Decidable (_ ∧ _))

def joined (xs : List Spelled) : List Char := [' '].intercalate (xs.map Spelled.text)

@[simp] theorem joined_nil : joined [] = [] := rfl

@[simp] theorem joined_one (x : Spelled) : joined [x] = x.text := by simp [joined]

theorem joined_cons_cons (x y : Spelled) (xs : List Spelled) :
    joined (x :: y :: xs) = x.text ++ ([' '] ++ joined (y :: xs)) := by
  rw [joined, List.map_cons, List.map_cons, List.intercalate_cons_cons, List.append_assoc]
  rfl

theorem exists_joined_cons (x : Spelled) (xs : List Spelled) : ∃ rest, joined (x :: xs) = x.text ++ rest ∧ LayoutNext rest := by
  cases xs with
  | nil => exact ⟨[], by simp, layoutNext_nil⟩
  | cons y xs => exact ⟨_, joined_cons_cons x y xs, layoutNext_cons rfl _⟩

end JsonnetLocals
