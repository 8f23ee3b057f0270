/-
  JsonnetLocals.Proofs.Syntax.Layout — layout and comments between tokens.

  Tokens are found by rank and not by length, so `1else` is a number and a keyword, and `a inb` is
  `a in b`. Pulling such pairs apart changes nothing: a gap (`Gap`) in front of a token or behind one
  gives a text with the same tree (`parse_ignores_layout`).
  - A gap is skipped, whatever follows (`Gap.isSkipped`).
  - The words in front of the gap are cut as before. Up to the gap the text agrees, so the only tokens
    that could change are those whose end depends on more than layout: a verbatim string that falls back
    to an earlier quote, a slash in front of a star, a name in front of a foreign letter. None of these is
    read, because nothing that begins so can come next (`Scans.delimited`).
  - A comment that ends with the line must not take the gap in. It does not stand next to a token that
    follows, since a newline is in between.
-/

import JsonnetLocals.Proofs.Syntax.CommentLine
import JsonnetLocals.Proofs.Syntax.Faults

namespace JsonnetLocals

open Lexeme
open Utf8 (encodeChars)

/-! ## What comes after a token -/

namespace State

variable {s s' : State} {t : Token} {stack : List Frame} {fault : Option ParseError} {e : Node} {level : Nat}

theorem focus_settle_slash (ht : t.terminal = .symbol .slash) (h : settle stack fault e level t = some s') :
    s'.focus = .operand := by
  simp only [settle, ht, BinaryOp.ofSymbol] at h
  obtain ⟨_, _, rfl⟩ := Option.map_eq_some_iff.mp h
  rfl

theorem focus_afterWhole_slash (ht : t.terminal = .symbol .slash) (h : afterWhole stack fault e t = some s') :
    s'.focus = .operand := by
  simp only [afterWhole, ht] at h
  exact focus_settle_slash ht h

/-- An operand comes after a slash. -/
theorem focus_of_slash (ht : t.terminal = .symbol .slash) (h : s.feed t = some s') : s'.focus = .operand := by
  obtain ⟨stack, focus, fault⟩ := s
  have hsymbol (u : Symbol) : t.isSymbol u = decide (u = .slash) := by
    rw [Token.isSymbol, ht, Bool.eq_iff_iff, beq_iff_eq, decide_eq_true_eq, Terminal.symbol.injEq, eq_comm]
  cases focus with
  | whole => exact focus_afterWhole_slash ht h
  | argumentName target args name =>
    simp only [feed, hsymbol, reduceCtorEq, decide_false, Bool.false_eq_true, if_false] at h
    exact focus_afterWhole_slash ht h
  | inSuper opening =>
    simp only [feed, hsymbol, reduceCtorEq, decide_false, Bool.false_eq_true, if_false] at h
    split at h
    · exact focus_settle_slash ht h
    · cases h
  | afterParams owner params =>
    cases owner <;>
      simp [feed, hsymbol, ht, afterParams, startOperand, operandMove, operandSymbol, UnaryOp.ofSymbol, ImportKind.ofSymbol,
        visibilityOf, Visibility.ofSymbol] at h
  | _ =>
    simp [feed, hsymbol, ht, startOperand, operandMove, operandSymbol, UnaryOp.ofSymbol, ImportKind.ofSymbol, memberMove,
      visibilityOf, Visibility.ofSymbol, StringKind.ofTerminal] at h

theorem context_stringMove (kind : StringKind) (t : Token) {finish : Node → Focus}
    (h : ∀ e, (finish e).context = .afterString) : (stringMove kind t finish).focus.context = .afterString := by
  unfold stringMove
  split
  · exact h _
  · exact h _

theorem settle_string {kind : StringKind} (hk : StringKind.ofTerminal t.terminal = some kind) :
    settle stack fault e level t = none := by
  have hdivider : takeDivider t stack e = none := by
    by_contra hsome
    obtain ⟨r, hr⟩ := Option.ne_none_iff_exists'.mp hsome
    rw [(resumes_takeDivider hr).notString] at hk
    cases hk
  cases ht : t.terminal with
  | textBlock | stringDouble | stringSingle | verbatimDouble | verbatimSingle =>
    simp only [settle, ht, hdivider]
    rfl
  | _ =>
    rw [ht] at hk
    cases hk

theorem afterWhole_string {kind : StringKind} (hk : StringKind.ofTerminal t.terminal = some kind) :
    afterWhole stack fault e t = none := by
  cases ht : t.terminal with
  | textBlock | stringDouble | stringSingle | verbatimDouble | verbatimSingle =>
    simp only [afterWhole, ht]
    exact settle_string hk
  | _ =>
    rw [ht] at hk
    cases hk

theorem context_operandMove {kind : StringKind} {m : Move} (hk : StringKind.ofTerminal t.terminal = some kind)
    (h : operandMove t = some m) : m.focus.context = .afterString := by
  cases ht : t.terminal with
  | textBlock | stringDouble | stringSingle | verbatimDouble | verbatimSingle =>
    simp only [operandMove, ht] at h
    obtain ⟨_, -, rfl⟩ := Option.map_eq_some_iff.mp h
    exact context_stringMove _ t fun _ => rfl
  | _ =>
    rw [ht] at hk
    cases hk

theorem context_memberMove {kind : StringKind} {object : ObjectHead} {m : Move}
    (hk : StringKind.ofTerminal t.terminal = some kind) (h : memberMove object t = some m) :
    m.focus.context = .afterString := by
  cases ht : t.terminal with
  | textBlock | stringDouble | stringSingle | verbatimDouble | verbatimSingle =>
    simp only [memberMove, ht] at h
    obtain ⟨_, -, rfl⟩ := Option.map_eq_some_iff.mp h
    exact context_stringMove _ t fun _ => rfl
  | _ =>
    rw [ht] at hk
    cases hk

/-- After a string no string can come. -/
theorem context_of_string {kind : StringKind} (hk : StringKind.ofTerminal t.terminal = some kind) (h : s.feed t = some s') :
    s'.focus.context = .afterString := by
  obtain ⟨stack, focus, fault⟩ := s
  have hsymbol (u : Symbol) : t.isSymbol u = false := by
    by_contra hu
    rw [Token.notString_of_isSymbol (Bool.not_eq_false _ ▸ hu)] at hk
    cases hk
  have hname : t.terminal ≠ .name := by
    intro hn
    rw [Token.notString_of_name hn] at hk
    cases hk
  have hvisibility : visibilityOf t = none := by
    by_contra hsome
    obtain ⟨v, hv⟩ := Option.ne_none_iff_exists'.mp hsome
    rw [Token.notString_of_visibilityOf hv] at hk
    cases hk
  have hoperand {stack : List Frame} (hs : startOperand stack fault t = some s') : s'.focus.context = .afterString := by
    obtain ⟨m, hm, rfl⟩ := Option.map_eq_some_iff.mp hs
    exact context_operandMove hk hm
  have hmember {object : ObjectHead} (hs : (memberMove object t).map (perform stack fault) = some s') :
      s'.focus.context = .afterString := by
    obtain ⟨m, hm, rfl⟩ := Option.map_eq_some_iff.mp hs
    exact context_memberMove hk hm
  cases focus with
  | operand | subscript | sliceStop | sliceStep | argument | element | nextElement =>
    simp only [feed, hsymbol, hname, Bool.false_and, Bool.false_eq_true, if_false] at h
    exact hoperand h
  | importPath importKind opening =>
    obtain ⟨_, -, rfl⟩ := Option.map_eq_some_iff.mp h
    exact context_stringMove _ t fun _ => rfl
  | member | nextMember =>
    simp only [feed, hsymbol, Bool.false_eq_true, if_false] at h
    exact hmember h
  | afterParams owner params =>
    cases owner with
    | function => exact hoperand h
    | bind => simp [feed, afterParams, hsymbol] at h
    | method => simp [feed, afterParams, hvisibility] at h
  | inSuper opening =>
    simp only [feed, hsymbol, Bool.false_eq_true, if_false] at h
    split at h
    · rw [settle_string hk] at h
      cases h
    · cases h
  | _ =>
    -- these take names and symbols only
    simp only [feed, hsymbol, hname, hvisibility, afterWhole_string hk, Bool.false_eq_true, if_false, Option.map_none,
      reduceCtorEq] at h

end State

/-! ## The next character -/

namespace Terminal

variable {c : Char}

/-- Of the characters that a terminal can begin with, only those of names are word characters. -/
theorem isWord_of_beginsWith {t : Terminal} (h : t.beginsWith c = true) (hc : isNameChar c = false) : Text.isWord c = false := by
  cases t with
  | name =>
    rw [isNameChar_of_isNameStart h] at hc
    cases hc
  | number =>
    have hdigit : isDigit c = true := h
    rw [isNameChar, hdigit, Bool.or_true] at hc
    cases hc
  | whitespace => exact isWord_of_isLayout h
  | symbol s =>
    have hall : ∀ s ∈ Symbol.ranked, s.spelling.toList.head?.all (fun c => isNameChar c || !Text.isWord c) = true := by
      decide +kernel
    have hhead := hall s (symbol_mem_ranked s)
    rw [eq_of_beq h, Option.all_some, hc, Bool.false_or, Bool.not_eq_true'] at hhead
    exact hhead
  | textBlock | stringDouble | stringSingle | blockComment | lineComment | verbatimDouble | verbatimSingle | hashComment =>
    obtain rfl := eq_of_beq h
    decide +kernel

/-- Only the symbol `*` begins with a star. -/
theorem eq_star {t : Terminal} (h : t.beginsWith '*' = true) : t = symbol .star := by
  have hall : ∀ t ∈ ranked, t.beginsWith '*' = true → t = symbol .star := by decide +kernel
  exact hall t (mem_ranked t) h

end Terminal

section Next

variable {file : Text} {s s' : State} {before text rest : List Char} {t : Terminal} {ws : List Word} {e : Node}

/-- What is read begins with a terminal that is admitted. -/
theorem Scans.exists_beginsWith (h : Scans file s before rest ws e) :
    ∀ c ∈ rest.head?, ∃ t, s.focus.context.admits t = true ∧ t.beginsWith c = true := by
  intro c hc
  have hbegins {text rest : List Char} {t : Terminal}
      (hm : Terminal.first s.focus.context.admits (text ++ rest) = some (t, text.length)) (hc : c ∈ (text ++ rest).head?) :
      t.beginsWith c = true := by
    obtain ⟨d, xs, rfl⟩ := List.exists_cons_of_ne_nil (JsonnetLocals.text_ne_nil hm)
    obtain rfl : d = c := Option.some.inj hc
    exact Terminal.beginsWith_of_width (Terminal.first_width hm).1
  cases h with
  | stop => cases hc
  | skip hm | take hm => exact ⟨_, Terminal.first_allowed hm, hbegins hm hc⟩

/-- What comes after a token cannot be part of it. -/
theorem Scans.delimited (hm : Terminal.first s.focus.context.admits (text ++ rest) = some (t, text.length))
    (hf : s.feed (tokenAt file before t text) = some s') (h : Scans file s' (before ++ text) rest ws e) : t.Delimited rest := by
  have hquote {quote : Char} {u : Terminal} (kind : StringKind) (hk : StringKind.ofTerminal t = some kind)
      (hq : quote = '"' ∧ u = .stringDouble ∨ quote = '\'' ∧ u = .stringSingle) : rest.head? ≠ some quote := by
    intro hc
    obtain ⟨v, hv, hb⟩ := h.exists_beginsWith quote hc
    obtain rfl := Terminal.eq_string hq hb
    rw [State.context_of_string (t := tokenAt file before t text) hk hf] at hv
    rcases hq with ⟨-, rfl⟩ | ⟨-, rfl⟩ <;> cases hv
  unfold Terminal.Delimited
  split
  · obtain ⟨-, -, hstop, -⟩ := (nameWidth_append (JsonnetLocals.text_ne_nil hm)).mp (Terminal.first_width hm).1
    have hbegins := h.exists_beginsWith
    cases rest with
    | nil => rfl
    | cons c rest =>
      obtain ⟨u, -, hb⟩ := hbegins c rfl
      exact Terminal.isWord_of_beginsWith hb hstop
  · exact hquote .verbatimDouble rfl (.inl ⟨rfl, rfl⟩)
  · exact hquote .verbatimSingle rfl (.inr ⟨rfl, rfl⟩)
  · intro hc
    obtain ⟨u, hu, hb⟩ := h.exists_beginsWith '*' hc
    obtain rfl := Terminal.eq_star hb
    rw [State.focus_of_slash (t := tokenAt file before (.symbol .slash) text) rfl hf] at hu
    cases hu
  · trivial

end Next

/-! ## What is skipped -/

namespace Terminal

variable {t : Terminal} {text cs ds : List Char}

/-- What is skipped keeps its width where the next character stays. -/
theorem width_of_head? (ht : t.isIgnored = true) (hne : text ≠ []) (hhead : ds.head? = cs.head?)
    (hw : t.width (text ++ cs) = text.length) : t.width (text ++ ds) = text.length := by
  cases t with
  | blockComment => exact blockCommentWidth_append hne cs ds hw
  | lineComment => exact lineCommentWidth_behind hne (by rw [hhead]; exact id) hw
  | whitespace => exact length_takeWhile_behind (by rw [hhead]; exact id) hw
  | hashComment => exact hashCommentWidth_behind hne (by rw [hhead]; exact id) hw
  | _ => cases ht

/-- A whole comment that ends with the line is all of its line. -/
theorem width_line (ht : t = lineComment ∨ t = hashComment) (hx : Spelled.Whole ⟨t, text⟩) :
    t.width (text ++ '\n' :: cs) = text.length := by
  have hwhole := width_append_nil hx.2
  rcases ht with rfl | rfl
  · exact lineCommentWidth_behind hx.1 (fun _ => rfl) hwhole
  · exact hashCommentWidth_behind hx.1 (fun _ => rfl) hwhole

/-- A comment that ends with the line goes up to the newline. -/
theorem head?_of_line (ht : t = lineComment ∨ t = hashComment) (hne : text ≠ []) (hw : t.width (text ++ cs) = text.length) :
    cs.head?.any (· ≠ '\n') = false := by
  have hstop (xs : List Char) (hline : ((xs ++ cs).takeWhile (· ≠ '\n')).length = xs.length) :
      cs.head?.any (· ≠ '\n') = false := (length_takeWhile_append.mp hline).2
  rcases ht with rfl | rfl
  · obtain ⟨xs, rfl⟩ := exists_slashes hne hw
    simp only [width, List.cons_append, lineCommentWidth, List.length_cons] at hw
    exact hstop xs (by omega)
  · obtain ⟨c, xs, rfl⟩ := List.exists_cons_of_ne_nil hne
    rw [width, List.cons_append, hashCommentWidth_cons, List.length_cons] at hw
    split at hw
    · exact hstop xs (by omega)
    · cases hw

end Terminal

/-- In front of `rest` the text is skipped, in whatever state. -/
def IsSkipped (text rest : List Char) : Prop :=
  ∀ (file : Text) (s : State) (before : List Char) (last : Position),
    parseFrom file s (placeAfter before) last (text ++ rest) = parseFrom file s (placeAfter (before ++ text)) last rest

section Skipped

variable {t : Terminal} {c : Char} {x y cs : List Char}

theorem IsSkipped.append (hx : IsSkipped x (y ++ cs)) (hy : IsSkipped y cs) : IsSkipped (x ++ y) cs := by
  intro file s before last
  rw [List.append_assoc, hx, hy, List.append_assoc]

theorem isSkipped_of_isIgnored (ht : t.isIgnored = true) (hne : x ≠ []) (hw : t.width (x ++ cs) = x.length) :
    IsSkipped x cs := by
  intro file s before last
  have hpos : t.width (x ++ cs) ≠ 0 := by
    rw [hw]
    exact fun hzero => hne (List.length_eq_zero_iff.mp hzero)
  have hfirst := Terminal.first_of_isIgnored s.focus.context ht hpos
  rw [hw] at hfirst
  exact parseFrom_skip hfirst ht

theorem isSkipped_blank (hc : isLayout c = true) (cs : List Char) : IsSkipped [c] cs :=
  fun _ _ _ _ => parseFrom_layout hc

/-- A run of layout is skipped character by character, also when more layout follows. -/
theorem isSkipped_layout (h : x.all isLayout = true) (cs : List Char) : IsSkipped x cs := by
  induction x with
  | nil =>
    intro file s before last
    rw [List.nil_append, List.append_nil]
  | cons c x ih =>
    rw [List.all_cons, Bool.and_eq_true] at h
    exact (isSkipped_blank h.1 (x ++ cs)).append (ih h.2)

end Skipped

/-- What may be put between tokens: a blank, a whole comment behind a blank, and for a comment that ends with the line
    its newline. -/
inductive Gap : List Char → Prop
  | blank {c : Char} : isLayout c = true → Gap [c]
  | block {c : Char} {x : List Char} : isLayout c = true → Spelled.Whole ⟨.blockComment, x⟩ → Gap (c :: x)
  | line {c : Char} {t : Terminal} {x : List Char} : isLayout c = true → t = .lineComment ∨ t = .hashComment →
      Spelled.Whole ⟨t, x⟩ → Gap (c :: (x ++ ['\n']))

/-- A gap is skipped, whatever follows. -/
theorem Gap.isSkipped {g : List Char} (h : Gap g) (cs : List Char) : IsSkipped g cs := by
  cases h with
  | blank hc => exact isSkipped_blank hc cs
  | @block c x hc hx =>
    have hw : Terminal.blockComment.width (x ++ cs) = x.length :=
      blockCommentWidth_append hx.1 [] cs (Terminal.width_append_nil hx.2)
    exact (isSkipped_blank hc (x ++ cs)).append (isSkipped_of_isIgnored rfl hx.1 hw)
  | @line c t x hc ht hx =>
    have hi : t.isIgnored = true := by rcases ht with rfl | rfl <;> rfl
    have hcomment : IsSkipped x (['\n'] ++ cs) := isSkipped_of_isIgnored hi hx.1 (Terminal.width_line ht hx)
    exact (isSkipped_blank hc ((x ++ ['\n']) ++ cs)).append (hcomment.append (isSkipped_blank rfl cs))

theorem Gap.layoutNext {g : List Char} (h : Gap g) (cs : List Char) : LayoutNext (g ++ cs) := by
  cases h with
  | blank hc | block hc _ | line hc _ _ => exact layoutNext_cons hc _

/-! ## Reading again -/

/-- From every state that differs from `s` in places only, wherever it stands, the text is read as `e`, up to places. -/
def State.ReadsAs (s : State) (cs : List Char) (e : Node) : Prop :=
  ∀ file u before last, u.Alike s →
    ∃ e', parseFrom file u (placeAfter before) last cs = .ok e' ∧ e'.relabel id id = e.relabel id id

namespace State.ReadsAs

variable {s s' : State} {text rest : List Char} {t : Terminal} {e : Node}

theorem nil (hf : s.finish = some e) (hn : s.fault = none) : s.ReadsAs [] e := by
  intro file u before last hu
  obtain ⟨e', he', htree⟩ := hu.finish hf
  refine ⟨e', ?_, htree⟩
  rw [parseFrom, State.result, he', hu.fault_eq, hn]

theorem skip (hs : IsSkipped text rest) (h : s.ReadsAs rest e) : s.ReadsAs (text ++ rest) e := by
  intro file u before last hu
  rw [hs]
  exact h file u (before ++ text) last hu

/-- A token that leads from one state to another leads from a state alike to a state alike, wherever it stands. -/
theorem take {file : Text} {before : List Char} (hm : Terminal.first s.focus.context.admits (text ++ rest) = some (t, text.length))
    (hi : t.isIgnored = false) (hf : s.feed (tokenAt file before t text) = some s') (hn : s'.fault = none)
    (h : s'.ReadsAs rest e) : s.ReadsAs (text ++ rest) e := by
  intro file' u before' last hu
  have hstep : s.Step ⟨before, tokenAt file before t text, none⟩ s' := ⟨Terminal.first_allowed hm, hf⟩
  have hspelled : Word.spelled ⟨before', tokenAt file' before' t text, none⟩ =
      Word.spelled ⟨before, tokenAt file before t text, none⟩ := rfl
  obtain ⟨u', hstep', hu'⟩ := hu.step hspelled hstep hn
  rw [← State.context_eq hu] at hm
  rw [parseFrom_take hm hi hstep'.feed]
  exact h file' u' (before' ++ text) (placeAfter before') hu'

end State.ReadsAs

section Again

variable {file : Text} {s : State} {before cs g : List Char} {us vs ws : List Word} {e : Node}

/-- A text is read again as it was read. -/
theorem Scans.readsAs (h : Scans file s before cs ws e) : s.ReadsAs cs e := by
  induction h with
  | stop hf hn => exact .nil hf hn
  | skip hm hi _ ih => exact .skip (isSkipped_of_isIgnored hi (JsonnetLocals.text_ne_nil hm) (Terminal.first_width hm).1) ih
  | take hm hi hf hrest ih => exact .take hm hi hf hrest.fault_eq_none ih

/-- No token begins with a newline. -/
theorem Scans.head?_newline (h : Scans file s before cs ws e) (hw : ws.head?.any (!·.isIgnored) = true) :
    cs.head?.any (· ≠ '\n') = true := by
  cases h with
  | stop => cases hw
  | skip hm hi =>
    rw [List.head?_cons, Option.any_some, Word.isIgnored, Bool.not_eq_true'] at hw
    exact absurd (hi.symm.trans hw) (by decide)
  | take hm hi =>
    obtain ⟨c, xs, rfl⟩ := List.exists_cons_of_ne_nil (JsonnetLocals.text_ne_nil hm)
    have hbegins := Terminal.beginsWith_of_width (Terminal.first_width hm).1
    rw [List.cons_append, List.head?_cons, Option.any_some, decide_eq_true_eq]
    intro hc
    rw [hc, Terminal.beginsWith_eq_false hi (.inl rfl)] at hbegins
    cases hbegins

/-- A gap between what is skipped and a token is skipped with it: layout takes it in, and a comment has ended. -/
theorem Scans.readsAs_skipped_gap {t : Terminal} {text : List Char} (hg : Gap g) (h : Scans file s before cs ws e)
    (hi : t.isIgnored = true) (hne : text ≠ []) (hw : t.width (text ++ cs) = text.length)
    (htoken : ws.head?.any (!·.isIgnored) = true) : s.ReadsAs (text ++ (g ++ cs)) e := by
  have hgap : s.ReadsAs (g ++ cs) e := .skip (hg.isSkipped cs) h.readsAs
  have hline (ht : t = .lineComment ∨ t = .hashComment) : False := by
    have hnewline := h.head?_newline htoken
    rw [Terminal.head?_of_line ht hne hw] at hnewline
    cases hnewline
  cases t with
  | whitespace => exact .skip (isSkipped_layout (length_takeWhile_append.mp hw).1 (g ++ cs)) hgap
  | blockComment =>
    have hwidth : Terminal.blockComment.width (text ++ (g ++ cs)) = text.length :=
      blockCommentWidth_append hne cs (g ++ cs) hw
    exact .skip (isSkipped_of_isIgnored rfl hne hwidth) hgap
  | lineComment => exact (hline (.inl rfl)).elim
  | hashComment => exact (hline (.inr rfl)).elim
  | _ => cases hi

/-- A text with a gap in front of a token or behind one is read as the text was. -/
theorem Scans.readsAs_gap (hg : Gap g) (h : Scans file s before cs (us ++ vs) e)
    (hedge : us.getLast?.all (!·.isIgnored) = true ∨ vs.head?.any (!·.isIgnored) = true) :
    s.ReadsAs (texts us ++ (g ++ texts vs)) e := by
  -- on the words in front of the gap: the one next to it is a token, or skipped up to a token
  induction us generalizing s before cs with
  | nil =>
    rw [List.nil_append] at h
    rw [texts_nil, List.nil_append, h.texts_eq]
    exact .skip (hg.isSkipped cs) h.readsAs
  | cons w us ih =>
    rw [List.cons_append] at h
    rw [texts_cons, List.append_assoc]
    have hedge' : us.getLast?.all (!·.isIgnored) = true ∨ vs.head?.any (!·.isIgnored) = true := by
      cases us with
      | nil => exact .inl rfl
      | cons v us => rwa [List.getLast?_cons_cons] at hedge
    cases h with
    | @skip _ _ text rest t _ _ hm hi hrest =>
      have hne := JsonnetLocals.text_ne_nil hm
      have hw := (Terminal.first_width hm).1
      have htext : rest = texts us ++ texts vs := by rw [← texts_append, hrest.texts_eq]
      cases us with
      | nil =>
        have htoken : vs.head?.any (!·.isIgnored) = true := by
          refine hedge.resolve_left ?_
          rw [List.getLast?_singleton, Option.all_some, Word.isIgnored, Bool.not_eq_true', Bool.not_eq_false]
          exact hi
        rw [List.nil_append] at hrest
        rw [texts_nil, List.nil_append] at htext ⊢
        rw [← htext]
        exact hrest.readsAs_skipped_gap hg hi hne hw htoken
      | cons v us =>
        have hv : v.text ≠ [] := hrest.text_ne_nil v (List.mem_append_left vs List.mem_cons_self)
        have hhead : (texts (v :: us) ++ (g ++ texts vs)).head? = rest.head? := by
          rw [htext, texts_cons, List.append_assoc, List.append_assoc, List.head?_append_of_ne_nil _ hv,
            List.head?_append_of_ne_nil _ hv]
        exact .skip (isSkipped_of_isIgnored hi hne (Terminal.width_of_head? hi hne hhead hw)) (ih hrest hedge')
    | @take _ s' _ text rest t _ _ hm hi hf hrest =>
      have htext : rest = texts us ++ texts vs := by rw [← texts_append, hrest.texts_eq]
      have hagrees : Agrees (!isLayout ·) rest (texts us ++ (g ++ texts vs)) := by
        rw [htext]
        exact (hg.layoutNext _).agrees _ _
      have hfirst := Terminal.first_of_agrees hi (JsonnetLocals.text_ne_nil hm) (hrest.delimited hm hf) hagrees hm
      exact .take hfirst hi hf hrest.fault_eq_none (ih hrest hedge')

end Again

/-- The one words end with a token, or the others begin with one. -/
def AtToken (us vs : List Word) : Prop :=
  us.getLast?.any (!·.isIgnored) = true ∨ vs.head?.any (!·.isIgnored) = true

instance (us vs : List Word) : Decidable (AtToken us vs) := inferInstanceAs (Decidable (_ ∨ _))

/-- Reading ignores layout: a text that is read has the same tree, up to places, with a gap in front of one of its
    tokens or behind it. -/
theorem parse_ignores_layout {file : Text} {source : Bytes} {tree : Node} {text gap : List Char} {us vs : List Word}
    (hp : parse file source = .ok tree) (hd : Utf8.decode source = .ok text) (hw : words file text = us ++ vs)
    (hedge : AtToken us vs) (hg : Gap gap) (file' : Text) :
    source = encodeChars (texts us ++ texts vs) ∧
      ∃ tree', parse file' (encodeChars (texts us ++ gap ++ texts vs)) = .ok tree' ∧
        tree'.relabel id id = tree.relabel id id := by
  rw [parse, hd] at hp
  have hscans : Scans file .start [] text (us ++ vs) tree := hw ▸ scans_of_parseFrom hp
  have htext : texts us ++ texts vs = text := by rw [← texts_append, hscans.texts_eq]
  refine ⟨by rw [htext, Utf8.eq_encodeChars_of_decode hd], ?_⟩
  have hedge' : us.getLast?.all (!·.isIgnored) = true ∨ vs.head?.any (!·.isIgnored) = true := by
    refine hedge.imp_left fun hlast => ?_
    cases hus : us.getLast? with
    | none => rfl
    | some w => rwa [hus] at hlast
  obtain ⟨tree', hparse, htree⟩ := hscans.readsAs_gap hg hedge' file' .start [] .origin rfl
  refine ⟨tree', ?_, htree⟩
  rw [parse, Utf8.decode_encodeChars, List.append_assoc]
  exact hparse

/-- A number and a keyword with nothing between them, pulled apart by a comment. -/
theorem parse_ignores_layout_glued :
    ∃ tree tree', parse "" (Utf8.encode "if a then 1else 2") = .ok tree ∧
      parse "" (Utf8.encode "if a then 1 /*c*/else 2") = .ok tree' ∧ tree'.relabel id id = tree.relabel id id := by
  have hok : (parse "" (Utf8.encode "if a then 1else 2")).isOk = true := by decide +kernel
  cases hp : parse "" (Utf8.encode "if a then 1else 2") with
  | error e =>
    rw [hp] at hok
    cases hok
  | ok tree =>
    have hwords := (List.take_append_drop 7 (words "" "if a then 1else 2".toList)).symm
    have hgap : Gap " /*c*/".toList := .block rfl (by decide)
    obtain ⟨-, tree', hp', htree⟩ :=
      parse_ignores_layout hp (Utf8.decode_encodeChars _) hwords (by decide +kernel) hgap ""
    have htext : encodeChars (texts ((words "" "if a then 1else 2".toList).take 7) ++ " /*c*/".toList ++
        texts ((words "" "if a then 1else 2".toList).drop 7)) = Utf8.encode "if a then 1 /*c*/else 2" := by decide +kernel
    exact ⟨tree, tree', rfl, htext ▸ hp', htree⟩

end JsonnetLocals
