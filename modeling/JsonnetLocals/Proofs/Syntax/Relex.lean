/-
  JsonnetLocals.Proofs.Syntax.Relex — cutting a text that changes behind the terminal that is taken.

  A terminal that does not match where another one is taken does not match where the text behind that one
  only agrees (`Terminal.width_eq_zero_behind`): a keyword that is no name because of the character behind
  it is none where no word character follows either. What is skipped is taken wherever it matches
  (`Terminal.first_of_isIgnored`).

  So tags behind the terminal that is taken change neither which one it is nor how much it takes
  (`Terminal.first_inserted`): it keeps its width (`Terminal.width_inserted`), and no terminal in front of
  it in rank matches now (`Terminal.width_eq_zero_inserted`). A name with a tag in front is a name
  (`Terminal.first_tag`), whatever it was before: no reserved word begins with `_`.
-/

import JsonnetLocals.Proofs.Syntax.Inserted

namespace JsonnetLocals

open Lexeme

/-! ## Names and symbols -/

section Names

variable {tag cs ds : List Char}

/-- What holds of all plain letters and `_` holds of all characters that can begin a name. -/
theorem of_isNameStart {p : Char → Bool} (hall : ∀ n < 128, isNameStart (Char.ofNat n) = true → p (Char.ofNat n) = true)
    {c : Char} (h : isNameStart c = true) : p c = true := by
  have hlt : c.toNat < 128 := by
    simp only [isNameStart, Bool.or_eq_true, Bool.and_eq_true, beq_iff_eq, decide_eq_true_eq, Char.le_def] at h
    rcases h with (rfl | ⟨_, h⟩) | ⟨_, h⟩
    · decide
    · exact Nat.lt_of_le_of_lt h (by decide)
    · exact Nat.lt_of_le_of_lt h (by decide)
  rw [← Char.ofNat_toNat c] at h ⊢
  exact hall c.toNat hlt h

theorem isWord_of_isNameStart {c : Char} (h : isNameStart c = true) : Text.isWord c = true :=
  of_isNameStart (by decide +kernel) h

theorem ne_newline_of_isNameStart {c : Char} (h : isNameStart c = true) : decide (c ≠ '\n') = true := by
  rw [decide_eq_true_eq]
  rintro rfl
  cases h

/-- Where no name can begin, the first character stays. -/
theorem Inserted.head?_eq (ht : IsTag tag) (h : Inserted tag cs ds) (hc : cs.head?.any isNameStart = false) :
    ds.head? = cs.head? := by
  rcases h.head ht with he | ⟨hstart, _⟩
  · exact he
  · rw [hstart] at hc
    cases hc

/-- Whether the word stands at the front with no word character behind it. -/
def standsAt (w cs : List Char) : Bool := w.isPrefixOf cs && !((cs.drop w.length).head?.any Text.isWord)

theorem startsReserved_eq (cs : List Char) : startsReserved cs = reserved.any fun w => standsAt w.toList cs := by
  simp only [startsReserved, standsAt, String.length_toList]

/-- Behind the end of a run of name characters it only matters whether a word character comes next. -/
theorem standsAt_append {w text rest rest' : List Char} (hw : w.all isNameChar = true)
    (hword : rest'.head?.any Text.isWord = rest.head?.any Text.isWord) (hstop : rest.head?.any isNameChar = false)
    (hstop' : rest'.head?.any isNameChar = false) : standsAt w (text ++ rest') = standsAt w (text ++ rest) := by
  by_cases hle : w.length ≤ text.length
  · have hbegins : ∀ after, w.isPrefixOf (text ++ after) = w.isPrefixOf text := by
      intro after
      rw [Bool.eq_iff_iff, List.isPrefixOf_iff_prefix, List.isPrefixOf_iff_prefix]
      exact ⟨fun h => List.prefix_of_prefix_length_le h (List.prefix_append text after) hle,
        fun h => h.trans (List.prefix_append text after)⟩
    rw [standsAt, standsAt, hbegins, hbegins, List.drop_append_of_le_length hle, List.drop_append_of_le_length hle]
    cases text.drop w.length with
    | nil => rw [List.nil_append, List.nil_append, hword]
    | cons c more => rfl
  · have hnot : ∀ after, after.head?.any isNameChar = false → w.isPrefixOf (text ++ after) = false := by
      intro after hafter
      by_contra hp
      rw [Bool.not_eq_false, List.isPrefixOf_iff_prefix] at hp
      obtain ⟨more, rfl⟩ := List.prefix_of_prefix_length_le (List.prefix_append text after) hp (by omega)
      rw [List.prefix_append_right_inj] at hp
      cases more with
      | nil => simp at hle
      | cons m more =>
        obtain ⟨after, rfl⟩ := hp
        simp_all
    rw [standsAt, standsAt, hnot rest hstop, hnot rest' hstop']
    rfl

theorem isNameChar_reserved : ∀ w ∈ reserved, w.toList.all isNameChar = true := by decide

theorem startsReserved_append {text rest rest' : List Char}
    (hword : rest'.head?.any Text.isWord = rest.head?.any Text.isWord) (hstop : rest.head?.any isNameChar = false)
    (hstop' : rest'.head?.any isNameChar = false) : startsReserved (text ++ rest') = startsReserved (text ++ rest) := by
  rw [startsReserved_eq, startsReserved_eq, Bool.eq_iff_iff, List.any_eq_true, List.any_eq_true]
  refine exists_congr fun w => and_congr_right fun hw => ?_
  rw [standsAt_append (isNameChar_reserved w hw) hword hstop hstop']

theorem head?_any_of_isNameChar {cs : List Char} (h : cs.head?.any isNameChar = false) : cs.head?.any isNameStart = false := by
  cases cs with
  | nil => rfl
  | cons c cs => exact (Bool.or_eq_false_iff.mp h).1

theorem nameWidth_inserted (ht : IsTag tag) {text : List Char} (hne : text ≠ []) (h : Inserted tag cs ds)
    (hw : nameWidth (text ++ cs) = text.length) : nameWidth (text ++ ds) = text.length := by
  obtain ⟨hstart, hall, hstop, hreserved⟩ := (nameWidth_append hne).mp hw
  have hhead := h.head?_eq ht (head?_any_of_isNameChar hstop)
  have hstop' : ds.head?.any isNameChar = false := by rw [hhead]; exact hstop
  refine (nameWidth_append hne).mpr ⟨hstart, hall, hstop', ?_⟩
  rw [startsReserved_append (by rw [hhead]) hstop hstop']
  exact hreserved

theorem startsReserved_underscore (cs : List Char) : startsReserved ('_' :: cs) = false := rfl

/-- A name with a tag in front is a name. -/
theorem nameWidth_tag (ht : IsTag tag) {text : List Char} (hne : text ≠ []) (h : Inserted tag cs ds)
    (hw : nameWidth (text ++ cs) = text.length) : nameWidth (tag ++ text ++ ds) = (tag ++ text).length := by
  obtain ⟨_, hall, hstop, _⟩ := (nameWidth_append hne).mp hw
  have hhead := h.head?_eq ht (head?_any_of_isNameChar hstop)
  have htag : (tag ++ text).all isNameChar = true := by rw [List.all_append, ht.2, hall, Bool.and_self]
  obtain ⟨tag', rfl⟩ := ht.exists_eq
  refine (nameWidth_append (by simp)).mpr ⟨rfl, htag, by rw [hhead]; exact hstop, ?_⟩
  exact startsReserved_underscore _

/-- The text that a symbol takes is its spelling. -/
theorem symbolWidth_eq_iff {s : Symbol} {text rest : List Char} (hne : text ≠ []) :
    symbolWidth s (text ++ rest) = text.length ↔ s.spelling.toList = text := by
  unfold symbolWidth
  constructor
  · intro h
    split at h
    · rename_i hp
      have hlen : s.spelling.toList.length = text.length := by rw [String.length_toList, h]
      exact (List.prefix_of_prefix_length_le (List.isPrefixOf_iff_prefix.mp hp) (List.prefix_append text rest)
        (Nat.le_of_eq hlen)).eq_of_length hlen
    · exact absurd (List.length_eq_zero_iff.mp h.symm) hne
  · rintro rfl
    rw [if_pos (List.isPrefixOf_iff_prefix.mpr (List.prefix_append _ rest)), String.length_toList]

theorem symbolWidth_agrees {p : Char → Bool} (h : Agrees p cs ds) {s : Symbol} (hs : s.spelling.toList.all p = true)
    (hw : symbolWidth s cs = 0) : symbolWidth s ds = 0 := by
  unfold symbolWidth at hw ⊢
  by_cases hbegins : s.spelling.toList.isPrefixOf ds
  · have hcs := h.of_prefix hs (List.isPrefixOf_iff_prefix.mp hbegins)
    rw [if_pos hbegins]
    rwa [if_pos (List.isPrefixOf_iff_prefix.mpr hcs)] at hw
  · rw [if_neg hbegins]

theorem commentRest_of_notMem {us : List Char} (hu : '*' ∉ us) (n : Nat) (cs : List Char) :
    commentRest n (us ++ cs) = commentRest (n + us.length) cs := by
  induction us generalizing n with
  | nil => rfl
  | cons u us ih =>
    rw [List.mem_cons, not_or] at hu
    rw [List.cons_append, commentRest_cons, if_neg fun hc => hu.1 hc.1.symm, ih hu.2, List.length_cons, Nat.add_right_comm,
      Nat.add_assoc]

/-- A comment that does not end does not end with tags in it. -/
theorem commentRest_inserted (ht : IsTag tag) {n : Nat} (h : Inserted tag cs ds) (hw : commentRest n cs = 0) (m : Nat) :
    commentRest m ds = 0 := by
  induction h generalizing n m with
  | nil => rfl
  | @keep c cs ds h' ih =>
    rw [commentRest_cons] at hw ⊢
    split at hw
    · omega
    · rename_i hc
      rw [if_neg fun hd => hc ⟨hd.1, (h'.head?_eq_some_iff ht rfl).mp hd.2⟩]
      exact ih hw (m + 1)
  | @insert c cs ds hc _ ih =>
    have htag : '*' ∉ tag := by
      intro hm
      have := List.all_eq_true.mp ht.2 _ hm
      cases this
    have hstar : c ≠ '*' := by
      rintro rfl
      cases hc
    rw [commentRest_cons, if_neg fun hd => hstar hd.1] at hw
    rw [commentRest_of_notMem htag, commentRest_cons, if_neg fun hd => hstar hd.1]
    exact ih hw _

end Names

/-! ## Terminals -/

namespace Terminal

variable {tag text cs ds : List Char}

/-- Tags behind a terminal do not change its width. -/
theorem width_inserted (ht : IsTag tag) (t : Terminal) (hne : text ≠ []) (h : Inserted tag cs ds)
    (hw : t.width (text ++ cs) = text.length) : t.width (text ++ ds) = text.length := by
  cases t with
  | name => exact nameWidth_inserted ht hne h hw
  | textBlock => exact textBlockWidth_append hne cs ds hw
  | number => exact numberWidth_agrees ((h.agrees ht).mono (by rintro c hc; rw [decide_eq_true_eq]; rintro rfl; cases hc)) hw
  | stringDouble => exact quotedWidth_append hne cs ds hw
  | stringSingle => exact quotedWidth_append hne cs ds hw
  | blockComment => exact blockCommentWidth_append hne cs ds hw
  | verbatimDouble => exact verbatimWidth_inserted ht rfl hne h hw
  | verbatimSingle => exact verbatimWidth_inserted ht rfl hne h hw
  | lineComment => exact lineCommentWidth_behind hne (stop_inserted ht (.inr fun _ => ne_newline_of_isNameStart) h) hw
  | whitespace => exact length_takeWhile_behind (stop_inserted ht (.inl rfl) h) hw
  | hashComment => exact hashCommentWidth_behind hne (stop_inserted ht (.inr fun _ => ne_newline_of_isNameStart) h) hw
  | symbol s => exact (symbolWidth_eq_iff hne).mpr ((symbolWidth_eq_iff hne).mp hw)

def beginsWith : Terminal → Char → Bool
  | name, c => isNameStart c
  | textBlock, c => c == '|'
  | number, c => isDigit c
  | stringDouble, c => c == '"'
  | stringSingle, c => c == '\''
  | blockComment, c | lineComment, c => c == '/'
  | verbatimDouble, c | verbatimSingle, c => c == '@'
  | whitespace, c => isLayout c
  | hashComment, c => c == '#'
  | symbol s, c => s.spelling.toList.head? == some c

theorem width_eq_zero {t : Terminal} {c : Char} (h : t.beginsWith c = false) (cs : List Char) : t.width (c :: cs) = 0 := by
  cases t with
  | name => simp_all [width, beginsWith, nameWidth]
  | textBlock =>
    have hc : c ≠ '|' := by simpa [beginsWith] using h
    simp [width, textBlockWidth, bars, hc.symm]
  | number =>
    have hc : isDigit c = false := h
    simp [width, numberWidth, digitsWidth, hc]
  | stringDouble => simp_all [width, beginsWith, quotedWidth]
  | stringSingle => simp_all [width, beginsWith, quotedWidth]
  | blockComment => simp_all [width, beginsWith, blockCommentWidth_cons]
  | verbatimDouble => simp_all [width, beginsWith, verbatimWidth_cons]
  | verbatimSingle => simp_all [width, beginsWith, verbatimWidth_cons]
  | lineComment => simp_all [width, beginsWith, lineCommentWidth_cons]
  | whitespace =>
    have hc : isLayout c = false := h
    simp [width, hc]
  | hashComment => simp_all [width, beginsWith, hashCommentWidth_cons]
  | symbol s =>
    rw [width, symbolWidth, if_neg]
    intro hp
    have hne : s.spelling.toList ≠ [] := by cases s <;> decide
    obtain ⟨d, xs, hd⟩ := List.exists_cons_of_ne_nil hne
    rw [hd, List.isPrefixOf_iff_prefix, List.cons_prefix_cons] at hp
    simp [beginsWith, hd, hp.1] at h

theorem beginsWith_of_width {t : Terminal} {c : Char} {xs : List Char} (hw : t.width (c :: xs ++ cs) = (c :: xs).length) :
    t.beginsWith c = true := by
  by_contra hb
  rw [Bool.not_eq_true] at hb
  rw [List.cons_append, width_eq_zero hb] at hw
  cases hw

/-- What is skipped is taken wherever it matches. -/
theorem first_of_isIgnored (ctx : Context) {t : Terminal} (ht : t.isIgnored = true) (hw : t.width cs ≠ 0) :
    first ctx.admits cs = some (t, t.width cs) := by
  have hranked : ranked = ranked.takeWhile (· ≠ t) ++ t :: (ranked.dropWhile (· ≠ t)).tail := by
    cases t with
    | blockComment | lineComment | whitespace | hashComment => decide
    | _ => cases ht
  refine first_eq_some_iff.mpr ⟨by simp [Context.admits, ht], rfl, hw, _, _, hranked, fun u hu _ => ?_⟩
  cases cs with
  | nil => exact absurd (Nat.le_zero.mp (width_le t [])) hw
  | cons c cs =>
    by_contra hzero
    have hbegins {v : Terminal} (hv : v.width (c :: cs) ≠ 0) : v.beginsWith c = true := by
      by_contra hno
      exact hv (width_eq_zero (Bool.not_eq_true _ ▸ hno) cs)
    -- of what comes first in rank, only a block comment begins alike, with a line comment
    have hall : ∀ t ∈ ranked, t.isIgnored = true → ∀ u ∈ ranked.takeWhile (· ≠ t), (u = blockComment ∧ t = lineComment) ∨
        [' ', '\t', '\r', '\n', '#', '/'].all (fun c => !(t.beginsWith c && u.beginsWith c)) = true := by decide +kernel
    have hc : c ∈ [' ', '\t', '\r', '\n', '#', '/'] := by
      have hb := hbegins hw
      cases t with
      | blockComment | lineComment | whitespace | hashComment =>
        simp only [beginsWith, isLayout, Bool.or_eq_true, beq_iff_eq] at hb
        simp only [List.mem_cons, List.not_mem_nil, or_false]
        tauto
      | _ => cases ht
    have hother : ¬ [' ', '\t', '\r', '\n', '#', '/'].all (fun c => !(t.beginsWith c && u.beginsWith c)) = true := by
      intro hno
      have hcno := List.all_eq_true.mp hno c hc
      rw [hbegins hw, hbegins hzero] at hcno
      cases hcno
    obtain ⟨rfl, rfl⟩ := (hall t (hranked ▸ by simp) ht u hu).resolve_right hother
    have hslash : cs.head? = some '/' := by
      by_contra hno
      exact hw (by rw [width, lineCommentWidth_cons, if_neg fun h => hno h.2])
    have hstar : cs.head? = some '*' := by
      by_contra hno
      exact hzero (by rw [width, blockCommentWidth_cons, if_neg fun h => hno h.2])
    exact absurd (hslash.symm.trans hstar) (by decide)

/-- Only a string begins with its quote. -/
theorem eq_string {t u : Terminal} {quote : Char} (hq : quote = '"' ∧ u = stringDouble ∨ quote = '\'' ∧ u = stringSingle)
    (h : t.beginsWith quote = true) : t = u := by
  rcases hq with ⟨rfl, rfl⟩ | ⟨rfl, rfl⟩
  all_goals
    cases t with
    | stringDouble | stringSingle => first | rfl | cases h
    | symbol s => cases s <;> cases h
    | _ => cases h

/-- Where strings can stand, only a text block begins with a bar. -/
theorem eq_textBlock {ctx : Context} {t : Terminal} (hb : ctx.admits textBlock = true) (ht : ctx.admits t = true)
    (h : t.beginsWith '|' = true) : t = textBlock := by
  have hs : ∀ s ∈ ctx.symbols, (symbol s).beginsWith '|' = false := by
    cases ctx <;> first | decide | cases hb
  cases t with
  | textBlock => rfl
  | symbol s =>
    have hmem : s ∈ ctx.symbols := by simpa [Context.admits, isIgnored] using ht
    rw [hs s hmem] at h
    cases h
  | _ => cases h

theorem symbol_mem_ranked (s : Symbol) : s ∈ Symbol.ranked := by cases s <;> decide

/-- A reserved word and a symbol that begin alike are the same, or one goes on where the other ends. -/
theorem reserved_comparable :
    ∀ s ∈ Symbol.ranked, ∀ w ∈ reserved, w.toList <+: s.spelling.toList ∨ s.spelling.toList <+: w.toList →
      w = s.spelling ∨ (s.spelling.toList.drop w.toList.length).head?.any Text.isWord = true ∨
        s = .kwImport ∧ (w = Symbol.kwImportstr.spelling ∨ w = Symbol.kwImportbin.spelling) := by
  decide +kernel

theorem symbolWidth_ne_zero {s : Symbol} {cs : List Char} (h : s.spelling.toList <+: cs) : symbolWidth s cs ≠ 0 := by
  rw [symbolWidth, if_pos (List.isPrefixOf_iff_prefix.mpr h)]
  cases s <;> decide

/-- A keyword that is no name because of where it ends is none where no word character follows either. -/
theorem startsReserved_behind {s : Symbol} (hword : cs.head?.any Text.isWord = false → ds.head?.any Text.isWord = false)
    (himport : s = .kwImport → symbolWidth .kwImportstr (s.spelling.toList ++ cs) = 0 ∧
      symbolWidth .kwImportbin (s.spelling.toList ++ cs) = 0)
    (hr : startsReserved (s.spelling.toList ++ cs) = true) : startsReserved (s.spelling.toList ++ ds) = true := by
  rw [startsReserved_eq, List.any_eq_true] at hr ⊢
  obtain ⟨w, hw, hstands⟩ := hr
  refine ⟨w, hw, ?_⟩
  rw [standsAt, Bool.and_eq_true, List.isPrefixOf_iff_prefix, Bool.not_eq_true'] at hstands
  obtain ⟨hbegins, hnext⟩ := hstands
  have hcomparable : w.toList <+: s.spelling.toList ∨ s.spelling.toList <+: w.toList :=
    List.prefix_or_prefix_of_prefix hbegins (List.prefix_append _ cs)
  rcases reserved_comparable s (symbol_mem_ranked s) w hw hcomparable with rfl | hgoes | ⟨rfl, hlonger⟩
  · rw [List.drop_left] at hnext
    rw [standsAt, List.drop_left, hword hnext, List.isPrefixOf_iff_prefix.mpr (List.prefix_append _ ds)]
    rfl
  · -- the symbol goes on with a word character, so the reserved word does not stand there
    have hlt : w.toList.length < s.spelling.toList.length := by
      by_contra hge
      rw [List.drop_of_length_le (by omega)] at hgoes
      cases hgoes
    rw [List.drop_append_of_le_length (Nat.le_of_lt hlt), List.head?_append] at hnext
    cases hd : (s.spelling.toList.drop w.toList.length).head? with
    | none =>
      rw [hd] at hgoes
      cases hgoes
    | some c =>
      rw [hd] at hgoes hnext
      exact absurd (hgoes.symm.trans hnext) (by decide)
  · -- the longer keyword would have been taken
    obtain ⟨hstr, hbin⟩ := himport rfl
    rcases hlonger with rfl | rfl
    · exact absurd hstr (symbolWidth_ne_zero hbegins)
    · exact absurd hbin (symbolWidth_ne_zero hbegins)

/-- Only names and keywords begin like a name. -/
theorem eq_symbol {t : Terminal} {c : Char} (hc : isNameStart c = true) (hb : t.beginsWith c = true) (hn : t ≠ name) :
    ∃ s, t = symbol s := by
  have hall : ∀ u ∈ (ranked.take 11).tail, u.beginsWith c = false := by
    have hnone := of_isNameStart (p := fun c => (ranked.take 11).tail.all fun u => !u.beginsWith c) (by decide +kernel) hc
    simpa using hnone
  cases t with
  | name => exact absurd rfl hn
  | symbol s => exact ⟨s, rfl⟩
  | _ =>
    rw [hall _ (by decide)] at hb
    cases hb

theorem blockCommentWidth_zero (ht : IsTag tag) (c : Char) (h : Inserted tag cs ds) (hw : blockCommentWidth (c :: cs) = 0) :
    blockCommentWidth (c :: ds) = 0 := by
  rw [blockCommentWidth_cons] at hw ⊢
  split
  · rename_i hd
    have hs := (h.head?_eq_some_iff ht rfl).mp hd.2
    rw [if_pos ⟨hd.1, hs⟩] at hw
    obtain ⟨cs, rfl⟩ := List.head?_eq_some_iff.mp hs
    obtain ⟨ds, rfl, h'⟩ := h.exists_cons rfl
    exact commentRest_inserted ht h' hw 2
  · rfl

theorem verbatimWidth_zero (ht : IsTag tag) {quote : Char} (hq : isNameChar quote = false) (c : Char) (h : Inserted tag cs ds)
    (hw : verbatimWidth quote (c :: cs) = 0) : verbatimWidth quote (c :: ds) = 0 := by
  rw [verbatimWidth_cons] at hw ⊢
  split
  · rename_i hd
    have hs := (h.head?_eq_some_iff ht hq).mp hd.2
    rw [if_pos ⟨hd.1, hs⟩] at hw
    obtain ⟨cs, rfl⟩ := List.head?_eq_some_iff.mp hs
    obtain ⟨ds, rfl, h'⟩ := h.exists_cons (Bool.or_eq_false_iff.mp hq).1
    rw [List.tail_cons] at hw ⊢
    have hrest := verbatimRest_inserted ht hq h' (n := 2) Nat.two_pos [] (by rw [List.nil_append, hw]; omega)
    rwa [List.nil_append, List.nil_append, hw] at hrest
  · rfl

theorem lineCommentWidth_agrees {p : Char → Bool} (hp : p '/' = true) (c : Char) (h : Agrees p cs ds)
    (hw : lineCommentWidth (c :: cs) = 0) : lineCommentWidth (c :: ds) = 0 := by
  rw [lineCommentWidth_cons] at hw ⊢
  split
  · rename_i hd
    refine absurd hd.2 (h.head?_ne hp fun hc => ?_)
    rw [if_pos ⟨hd.1, hc⟩] at hw
    omega
  · rfl

/-- A terminal that does not match where another one is taken does not match where the text behind that one only
    agrees, if no word character comes next now: unless it begins a comment or a verbatim string, whose end may be
    further on. -/
theorem width_eq_zero_behind {p : Char → Bool} {ctx : Context} {u t : Terminal} (hu : ctx.admits u = true)
    (hadmits : ctx.admits t = true) (hne : text ≠ []) (h : Agrees p cs ds)
    (hp : ∀ s ∈ Symbol.ranked, s.spelling.toList.all p = true)
    (hword : cs.head?.any Text.isWord = false → ds.head?.any Text.isWord = false)
    (hends : u = blockComment ∨ u = verbatimDouble ∨ u = verbatimSingle → u.width (text ++ ds) = 0)
    (hw : t.width (text ++ cs) = text.length)
    (himport : t = symbol .kwImport → symbolWidth .kwImportstr (text ++ cs) = 0 ∧ symbolWidth .kwImportbin (text ++ cs) = 0)
    (hz : u.width (text ++ cs) = 0) : u.width (text ++ ds) = 0 := by
  obtain ⟨c, xs, rfl⟩ := List.exists_cons_of_ne_nil hne
  have hbegins := beginsWith_of_width hw
  -- the terminal that is taken is another one
  have hother : u ≠ t := by
    rintro rfl
    rw [hz] at hw
    cases hw
  by_cases hb : u.beginsWith c = true
  · rw [List.cons_append] at hz hends ⊢
    cases u with
    | name =>
      obtain ⟨s, rfl⟩ := eq_symbol hb hbegins (Ne.symm hother)
      have hspelling : s.spelling.toList = c :: xs := (symbolWidth_eq_iff hne).mp hw
      have hreserved : startsReserved (s.spelling.toList ++ cs) = true := by
        by_contra hno
        rw [hspelling, Bool.not_eq_true, List.cons_append] at hno
        have hstart : isNameStart c = true := hb
        rw [width, nameWidth, hno, hstart] at hz
        simp at hz
      have hreserved' := startsReserved_behind hword (fun hs => by rw [hspelling]; exact himport (congrArg symbol hs)) hreserved
      rw [hspelling, List.cons_append] at hreserved'
      rw [width, nameWidth, hreserved']
      simp
    | textBlock =>
      obtain rfl : c = '|' := by simpa [beginsWith] using hb
      exact absurd (eq_textBlock hu hadmits hbegins).symm hother
    | number =>
      have hdigit : isDigit c = true := hb
      simp [width, numberWidth_eq, digitsWidth, hdigit] at hz
    | stringDouble =>
      obtain rfl : c = '"' := by simpa [beginsWith] using hb
      exact absurd (eq_string (.inl ⟨rfl, rfl⟩) hbegins).symm hother
    | stringSingle =>
      obtain rfl : c = '\'' := by simpa [beginsWith] using hb
      exact absurd (eq_string (.inr ⟨rfl, rfl⟩) hbegins).symm hother
    | blockComment => exact hends (.inl rfl)
    | verbatimDouble => exact hends (.inr (.inl rfl))
    | verbatimSingle => exact hends (.inr (.inr rfl))
    | lineComment =>
      have hslash : p '/' = true := by simpa [Symbol.spelling] using hp .slash (symbol_mem_ranked .slash)
      exact lineCommentWidth_agrees hslash c (h.append xs) hz
    | whitespace =>
      have hlayout : isLayout c = true := hb
      simp [width, hlayout] at hz
    | hashComment =>
      obtain rfl : c = '#' := by simpa [beginsWith] using hb
      rw [width, hashCommentWidth_cons, if_pos rfl] at hz
      omega
    | symbol s => exact symbolWidth_agrees (.keep c (h.append xs)) (hp s (symbol_mem_ranked s)) hz
  · exact width_eq_zero (Bool.not_eq_true _ ▸ hb) (xs ++ ds)

/-- A terminal that does not match in front of the one that is taken does not match with tags behind that. -/
theorem width_eq_zero_inserted (ht : IsTag tag) {ctx : Context} {u t : Terminal} (hu : ctx.admits u = true)
    (hadmits : ctx.admits t = true) (hne : text ≠ []) (h : Inserted tag cs ds) (hw : t.width (text ++ cs) = text.length)
    (himport : t = symbol .kwImport → symbolWidth .kwImportstr (text ++ cs) = 0 ∧ symbolWidth .kwImportbin (text ++ cs) = 0)
    (hz : u.width (text ++ cs) = 0) : u.width (text ++ ds) = 0 := by
  have hspelling : ∀ s ∈ Symbol.ranked, s.spelling.toList.all (· ≠ '_') = true := by decide
  have hword : cs.head?.any Text.isWord = false → ds.head?.any Text.isWord = false := by
    intro hc
    rw [h.head?_eq ht (Agrees.any_eq_false_of_imp (fun _ => isWord_of_isNameStart) hc)]
    exact hc
  refine width_eq_zero_behind hu hadmits hne (h.agrees ht) hspelling hword ?_ hw himport hz
  obtain ⟨c, xs, rfl⟩ := List.exists_cons_of_ne_nil hne
  have htail : Inserted tag (xs ++ cs) (xs ++ ds) := (Inserted.refl xs).append h
  rintro (rfl | rfl | rfl)
  · exact blockCommentWidth_zero ht c htail hz
  · exact verbatimWidth_zero ht rfl c htail hz
  · exact verbatimWidth_zero ht rfl c htail hz

theorem kwImport_ranked :
    ∀ k < ranked.length, ranked[k]? = some (symbol .kwImport) →
      symbol .kwImportstr ∈ ranked.take k ∧ symbol .kwImportbin ∈ ranked.take k := by
  decide +kernel

theorem admits_kwImport {ctx : Context} (h : ctx.admits (symbol .kwImport) = true) :
    ctx.admits (symbol .kwImportstr) = true ∧ ctx.admits (symbol .kwImportbin) = true := by
  cases ctx <;> first | decide | cases h

/-- Where `import` is taken, the keywords that it begins do not stand. -/
theorem kwImport_width {ctx : Context} {w : Nat} (h : first ctx.admits cs = some (symbol .kwImport, w)) :
    symbolWidth .kwImportstr cs = 0 ∧ symbolWidth .kwImportbin cs = 0 := by
  obtain ⟨hadmits, _, _, earlier, later, hranked, hzero⟩ := first_eq_some_iff.mp h
  obtain ⟨hstr, hbin⟩ := admits_kwImport hadmits
  have htake : ranked.take earlier.length = earlier := by rw [hranked, List.take_left]
  obtain ⟨hs, hb⟩ := kwImport_ranked earlier.length (by rw [hranked]; simp) (by rw [hranked]; simp)
  rw [htake] at hs hb
  exact ⟨hzero _ hs hstr, hzero _ hb hbin⟩

/-- Tags behind the terminal that is taken do not change which one is taken, and how much. -/
theorem first_inserted (ht : IsTag tag) {ctx : Context} {t : Terminal} (h : Inserted tag cs ds) (hne : text ≠ [])
    (hf : first ctx.admits (text ++ cs) = some (t, text.length)) :
    first ctx.admits (text ++ ds) = some (t, text.length) := by
  obtain ⟨hadmits, hw, hpos, earlier, later, hranked, hzero⟩ := first_eq_some_iff.mp hf
  refine first_eq_some_iff.mpr ⟨hadmits, width_inserted ht t hne h hw, hpos, earlier, later, hranked, ?_⟩
  intro u hu hau
  refine width_eq_zero_inserted ht hau hadmits hne h hw ?_ (hzero u hu hau)
  rintro rfl
  exact kwImport_width hf

/-- A name is taken as a name with a tag in front. -/
theorem first_tag (ht : IsTag tag) {ctx : Context} (h : Inserted tag cs ds) (hne : text ≠ [])
    (hf : first ctx.admits (text ++ cs) = some (name, text.length)) :
    first ctx.admits (tag ++ text ++ ds) = some (name, (tag ++ text).length) := by
  obtain ⟨hadmits, hw, _⟩ := first_eq_some_iff.mp hf
  refine first_eq_some_iff.mpr ⟨hadmits, nameWidth_tag ht hne h hw, ?_, [], ranked.tail, rfl, ?_⟩
  · simp [hne]
  · intro u hu
    cases hu

end Terminal

end JsonnetLocals
