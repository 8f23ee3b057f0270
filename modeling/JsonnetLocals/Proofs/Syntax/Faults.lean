/-
  JsonnetLocals.Proofs.Syntax.Faults — which fault a text is refused for.

  A token adds at most one fault to the machine: a string the fault of its own literal, any other
  token one of syntax (`Token.Adds`, `State.leads_feed`). The first fault stays
  (`State.fault_of_run_some`). A text that is not cut into words up to its end is refused for a fault
  of syntax, and one that is ends as the words leave the machine (`parseFrom_cases`). So the one fault
  that is none of syntax is met exactly when the text can be read to its end and the first construct in
  it that is wrong is a quoted string with a surrogate that lacks its partner:
  - `parse_loneSurrogate_iff`, with `HasLone` for the condition.
-/

import JsonnetLocals.Proofs.Syntax.Stack

namespace JsonnetLocals

/-! ## The fault of a token -/

def Literal.fault? (kind : StringKind) (t : Token) : Option ParseError :=
  match stringValue kind t.text t.range.start with
  | .ok _ => none
  | .error e => some e

/-- The fault that a token may add: a string that of its literal, any other token one of syntax. -/
structure Token.Adds (t : Token) (f : Option ParseError) : Prop where
  string : ∀ kind, StringKind.ofTerminal t.terminal = some kind → f = Literal.fault? kind t
  other : StringKind.ofTerminal t.terminal = none → ∀ e ∈ f, e.isSyntax = true

/-- The token leads from a state with the one fault to a state with the other. -/
def Token.Leads (t : Token) (before after : Option ParseError) : Prop := ∃ f, after = before.or f ∧ t.Adds f

section Adds

variable {t : Token} {s s' : State} {stack rest : List Frame} {fault f : Option ParseError} {e : Node} {m : Move}

theorem Token.adds_of_notString (h : StringKind.ofTerminal t.terminal = none) (hf : ∀ e ∈ f, e.isSyntax = true) :
    t.Adds f := by
  refine ⟨?_, fun _ => hf⟩
  intro kind hk
  rw [h] at hk
  cases hk

theorem Token.notString_of_symbol {sym : Symbol} (h : t.terminal = .symbol sym) : StringKind.ofTerminal t.terminal = none := by
  rw [h]
  rfl

theorem Token.notString_of_isSymbol {sym : Symbol} (h : t.isSymbol sym = true) : StringKind.ofTerminal t.terminal = none :=
  Token.notString_of_symbol (eq_of_beq h)

theorem Token.notString_of_name (h : t.terminal = .name) : StringKind.ofTerminal t.terminal = none := by
  rw [h]
  rfl

/-- A token that is no string and finishes nothing leaves the fault. -/
theorem Token.leads_same (h : StringKind.ofTerminal t.terminal = none) : t.Leads fault fault :=
  ⟨none, Option.or_none.symm, Token.adds_of_notString h (by simp)⟩

theorem State.leads_perform (h : t.Adds m.fault) : t.Leads fault (State.perform stack fault m).fault := ⟨m.fault, rfl, h⟩

theorem State.leads_move (h : StringKind.ofTerminal t.terminal = none) (hm : m.fault = none) :
    t.Leads fault (State.perform stack fault m).fault :=
  State.leads_perform (Token.adds_of_notString h (by simp [hm]))

theorem State.adds_stringMove {kind : StringKind} (h : StringKind.ofTerminal t.terminal = some kind) (finish : Node → Focus) :
    t.Adds (State.stringMove kind t finish).fault := by
  constructor
  · intro kind' hk
    obtain rfl : kind = kind' := Option.some.inj (h.symm.trans hk)
    unfold State.stringMove Literal.fault?
    cases Literal.stringValue kind t.text t.range.start with
    | ok value => rfl
    | error fault => rfl
  · intro hn
    rw [h] at hn
    cases hn

/-! ## Constructs that are finished -/

theorem isSyntax_finishCall (target : Node) (args : List Argument) (close : Range) :
    ∀ x ∈ (finishCall target args close).fault, x.isSyntax = true := by
  intro x hx
  unfold finishCall at hx
  dsimp only at hx
  split at hx
  · cases hx
    rfl
  · cases hx

theorem isSyntax_membersFault (members : List Node) (place : Position) :
    ∀ x ∈ membersFault members place, x.isSyntax = true := by
  intro x hx
  unfold membersFault at hx
  split at hx
  · cases hx
    rfl
  · split at hx
    · split at hx
      · cases hx
      · cases hx
        rfl
    · cases hx
      rfl

theorem isSyntax_finishComp (head : CompHead) (specs : List Node) (close : Range) :
    ∀ x ∈ (finishComp head specs close).fault, x.isSyntax = true := by
  cases head with
  | array h =>
    intro x hx
    have hx : x ∈ elementsFault h.elements h.opening.start := hx
    unfold elementsFault at hx
    split at hx
    · cases hx
    · cases hx
      rfl
  | object h => exact isSyntax_membersFault _ _

/-- A construct that waits for a token waits for a symbol, and what it finishes has at most a fault of syntax. -/
structure Resumes (t : Token) (m : Move) : Prop where
  notString : StringKind.ofTerminal t.terminal = none
  isSyntax : ∀ x ∈ m.fault, x.isSyntax = true

theorem resumes_afterMember {object : ObjectHead} {n : Node} (h : afterMember object n t = some m) : Resumes t m := by
  unfold afterMember at h
  dsimp only at h
  split at h
  all_goals
    first
    | cases h; exact ⟨Token.notString_of_symbol ‹_›, by simp [Move.goTo, finishObject, Move.done]⟩
    | cases h

theorem resumes_afterSpec {head : CompHead} {specs : List Node} (h : afterSpec head specs t = some m) : Resumes t m := by
  unfold afterSpec at h
  split at h
  · cases h
    exact ⟨Token.notString_of_symbol ‹_›, by simp [Move.goTo]⟩
  · cases h
    exact ⟨Token.notString_of_symbol ‹_›, by simp [Move.await]⟩
  · cases h
    exact ⟨Token.notString_of_symbol ‹_›, isSyntax_finishComp _ _ _⟩
  · cases h
    exact ⟨Token.notString_of_symbol ‹_›, isSyntax_finishComp _ _ _⟩
  · cases h

theorem resumes_resume {frame : Frame} (h : frame.resume e t = some m) : Resumes t m := by
  have hsymbol {sym : Symbol} {m' : Move} (ht : t.isSymbol sym = true) (hm : m'.fault = none) (hs : some m' = some m) :
      Resumes t m := by
    obtain rfl := Option.some.inj hs
    exact ⟨Token.notString_of_isSymbol ht, by simp [hm]⟩
  cases frame with
  | bindValue place name params =>
    cases place with
    | inExpr opening binds =>
      simp only [Frame.resume] at h
      repeat' split at h
      · exact hsymbol ‹_› rfl h
      · exact hsymbol ‹_› rfl h
      · cases h
    | inObject object opening => exact resumes_afterMember h
  | argument target args name =>
    simp only [Frame.resume] at h
    repeat' split at h
    · exact hsymbol ‹_› rfl h
    · cases h
      exact ⟨Token.notString_of_isSymbol ‹_›, isSyntax_finishCall _ _ _⟩
    · cases h
  | fieldBody field params plus visibility => exact resumes_afterMember h
  | objectAssertCond object opening =>
    simp only [Frame.resume] at h
    split at h
    · exact hsymbol ‹_› rfl h
    · exact resumes_afterMember h
  | objectAssertMessage object opening cond => exact resumes_afterMember h
  | forSource head specs opening name => exact resumes_afterSpec h
  | ifSpec head specs opening => exact resumes_afterSpec h
  | _ =>
    simp only [Frame.resume] at h
    repeat' split at h
    all_goals
      first
      | exact hsymbol ‹_› rfl h
      | cases h

theorem resumes_takeDivider (h : State.takeDivider t stack e = some (rest, m)) : Resumes t m := by
  induction stack generalizing e with
  | nil => cases h
  | cons frame stack ih =>
    rw [State.takeDivider] at h
    split at h
    · rename_i hr
      cases h
      exact resumes_resume hr
    · split at h
      · exact ih h
      · cases h

/-! ## Steps -/

theorem State.leads_settle {level : Nat} (h : State.settle stack fault e level t = some s') : t.Leads fault s'.fault := by
  unfold State.settle at h
  dsimp only at h
  split at h
  · rename_i op hop
    obtain ⟨_, -, rfl⟩ := Option.map_eq_some_iff.mp h
    refine Token.leads_same ?_
    split at hop
    · exact Token.notString_of_symbol ‹_›
    · cases hop
  · obtain ⟨⟨rest, m⟩, hdivider, rfl⟩ := Option.map_eq_some_iff.mp h
    have hr := resumes_takeDivider hdivider
    exact State.leads_perform (Token.adds_of_notString hr.notString hr.isSyntax)

theorem State.leads_afterWhole (h : State.afterWhole stack fault e t = some s') : t.Leads fault s'.fault := by
  unfold State.afterWhole at h
  split at h
  · cases h
    exact Token.leads_same (Token.notString_of_symbol ‹_›)
  · cases h
    exact Token.leads_same (Token.notString_of_symbol ‹_›)
  · cases h
    exact Token.leads_same (Token.notString_of_symbol ‹_›)
  · cases h
    exact Token.leads_same (Token.notString_of_symbol ‹_›)
  · obtain ⟨_, -, rfl⟩ := Option.map_eq_some_iff.mp h
    exact Token.leads_same (Token.notString_of_symbol ‹_›)
  · exact State.leads_settle h

theorem State.fault_operandSymbol {sym : Symbol} {range : Range} (h : State.operandSymbol sym range = some m) : m.fault = none := by
  unfold State.operandSymbol at h
  repeat' split at h
  all_goals
    first
    | cases h; rfl
    | cases h

theorem State.adds_operandMove (h : State.operandMove t = some m) : t.Adds m.fault := by
  unfold State.operandMove at h
  split at h
  · cases h
    exact Token.adds_of_notString (Token.notString_of_name ‹_›) (by simp [Move.done])
  · rename_i ht
    cases h
    exact Token.adds_of_notString (by rw [ht]; rfl) (by simp [Move.done])
  · refine Token.adds_of_notString (Token.notString_of_symbol ‹_›) ?_
    simp [State.fault_operandSymbol h]
  · obtain ⟨kind, hk, rfl⟩ := Option.map_eq_some_iff.mp h
    exact State.adds_stringMove hk _

theorem State.adds_memberMove {object : ObjectHead} (h : State.memberMove object t = some m) : t.Adds m.fault := by
  unfold State.memberMove at h
  split at h
  · cases h
    exact Token.adds_of_notString (Token.notString_of_name ‹_›) (by simp [Move.goTo])
  · cases h
    exact Token.adds_of_notString (Token.notString_of_symbol ‹_›) (by simp [Move.await])
  · cases h
    exact Token.adds_of_notString (Token.notString_of_symbol ‹_›) (by simp [Move.await])
  · cases h
    exact Token.adds_of_notString (Token.notString_of_symbol ‹_›) (by simp [Move.goTo])
  · cases h
    exact Token.adds_of_notString (Token.notString_of_symbol ‹_›) (by simp [finishObject, Move.done])
  · cases h
  · obtain ⟨kind, hk, rfl⟩ := Option.map_eq_some_iff.mp h
    exact State.adds_stringMove hk _

theorem State.leads_startOperand (h : State.startOperand stack fault t = some s') : t.Leads fault s'.fault := by
  obtain ⟨m, hm, rfl⟩ := Option.map_eq_some_iff.mp h
  exact State.leads_perform (State.adds_operandMove hm)

theorem Token.notString_of_visibilityOf {v : Visibility} (h : State.visibilityOf t = some v) :
    StringKind.ofTerminal t.terminal = none := by
  unfold State.visibilityOf at h
  split at h
  · exact Token.notString_of_symbol ‹_›
  · cases h

theorem State.leads_afterParams {owner : ParamOwner} {params : List (Param Node)}
    (h : State.afterParams stack fault owner params t = some s') : t.Leads fault s'.fault := by
  cases owner with
  | function opening => exact State.leads_startOperand h
  | bind place name =>
    simp only [State.afterParams, Option.ite_none_right_eq_some, Option.some.injEq] at h
    obtain ⟨ht, rfl⟩ := h
    exact State.leads_move (Token.notString_of_isSymbol ht) rfl
  | method field =>
    obtain ⟨v, hv, rfl⟩ := Option.map_eq_some_iff.mp h
    exact State.leads_move (Token.notString_of_visibilityOf hv) rfl

/-- One step: the first fault stays, and a token adds its own. -/
theorem State.leads_feed (h : s.feed t = some s') : t.Leads s.fault s'.fault := by
  have hsymbol {sym : Symbol} {m : Move} (ht : t.isSymbol sym = true) (hm : m.fault = none)
      (hs : some (State.perform s.stack s.fault m) = some s') : t.Leads s.fault s'.fault :=
    Option.some.inj hs ▸ State.leads_move (Token.notString_of_isSymbol ht) hm
  have hname {m : Move} (ht : t.terminal = .name) (hm : m.fault = none)
      (hs : some (State.perform s.stack s.fault m) = some s') : t.Leads s.fault s'.fault :=
    Option.some.inj hs ▸ State.leads_move (Token.notString_of_name ht) hm
  have hvisibility {f : Visibility → Frame}
      (hs : (State.visibilityOf t).map (fun v => State.perform s.stack s.fault (.await (f v))) = some s') :
      t.Leads s.fault s'.fault := by
    obtain ⟨v, hv, rfl⟩ := Option.map_eq_some_iff.mp hs
    exact State.leads_move (Token.notString_of_visibilityOf hv) rfl
  have hmember {object : ObjectHead}
      (hs : (State.memberMove object t).map (State.perform s.stack s.fault) = some s') : t.Leads s.fault s'.fault := by
    obtain ⟨m, hm, rfl⟩ := Option.map_eq_some_iff.mp hs
    exact State.leads_perform (State.adds_memberMove hm)
  simp only [State.feed] at h
  cases hfocus : s.focus with
  | operand =>
    simp only [hfocus] at h
    split at h
    · rename_i ht
      cases h
      exact Token.leads_same (Token.notString_of_isSymbol (Bool.and_eq_true_iff.mp ht).1)
    · exact State.leads_startOperand h
  | importPath kind opening =>
    simp only [hfocus] at h
    obtain ⟨k, hk, rfl⟩ := Option.map_eq_some_iff.mp h
    exact State.leads_perform (State.adds_stringMove hk _)
  | argument target args =>
    simp only [hfocus] at h
    repeat' split at h
    · cases h
      exact State.leads_perform (Token.adds_of_notString (Token.notString_of_isSymbol ‹_›) (isSyntax_finishCall _ _ _))
    · exact hname ‹_› rfl h
    · exact State.leads_startOperand h
  | afterParams owner params =>
    simp only [hfocus] at h
    exact State.leads_afterParams h
  | _ =>
    simp only [hfocus] at h
    repeat' split at h
    all_goals
      first
      | exact hsymbol ‹_› rfl h
      | exact hname ‹_› rfl h
      | exact State.leads_startOperand h
      | exact State.leads_afterWhole h
      | exact State.leads_settle h
      | exact hvisibility h
      | exact hmember h
      | cases h

end Adds

/-! ## Strings that stand for no text -/

/-- The word is a quoted string, and one of its 16-bit units is a surrogate without its partner. -/
def Word.SpellsLone (w : Word) (x : Utf16.Lone) : Prop :=
  (w.token.terminal = .stringDouble ∨ w.token.terminal = .stringSingle) ∧
    ∃ units, Literal.unescape [] (w.text.drop 1).dropLast = .ok units ∧ Utf16.decode units = .error x

theorem quotedValue_lone_iff {body : List Char} {place : Position} {x : Utf16.Lone} :
    Literal.quotedValue body place = .error (.loneSurrogate x) ↔
      ∃ units, Literal.unescape [] body = .ok units ∧ Utf16.decode units = .error x := by
  unfold Literal.quotedValue
  cases hu : Literal.unescape [] body with
  | error c => simp
  | ok units =>
    dsimp only
    cases hd : Utf16.decode units with
    | error y => simp [hd]
    | ok cs => simp [hd]

/-- A text block has at most a fault of syntax. -/
theorem isSyntax_of_dedent {indent : List Char} {place : Position} {line : Nat} {ls : List (List Char)} {y : ParseError}
    (h : Literal.dedent indent place line ls = .error y) : y.isSyntax = true := by
  induction ls generalizing line with
  | nil => cases h
  | cons l rest ih =>
    have hmap {f : List (List Char) → List (List Char)}
        (hm : (Literal.dedent indent place (line + 1) rest).map f = .error y) : y.isSyntax = true := by
      cases hd : Literal.dedent indent place (line + 1) rest with
      | error z =>
        rw [hd] at hm
        cases hm
        exact ih hd
      | ok ls =>
        rw [hd] at hm
        cases hm
    unfold Literal.dedent at h
    split at h
    · exact hmap h
    · split at h
      · exact hmap h
      · cases h
        rfl

theorem isSyntax_of_blockValue {text : List Char} {place : Position} {y : ParseError}
    (h : Literal.blockValue text place = .error y) : y.isSyntax = true := by
  unfold Literal.blockValue at h
  dsimp only at h
  split at h
  · cases h
    rfl
  · cases hd : Literal.dedent ((Literal.blockLines text).headD [] |>.takeWhile Text.isIndent) place 1
      (Literal.blockLines text) with
    | error z =>
      rw [hd] at h
      cases h
      exact isSyntax_of_dedent hd
    | ok ls =>
      rw [hd] at h
      cases h

theorem Literal.fault?_eq_some_iff {kind : StringKind} {t : Token} {y : ParseError} :
    Literal.fault? kind t = some y ↔ Literal.stringValue kind t.text t.range.start = .error y := by
  unfold Literal.fault?
  cases Literal.stringValue kind t.text t.range.start with
  | ok value => simp
  | error z => simp

/-- Only a quoted string has a fault that is none of syntax. -/
theorem Literal.fault?_lone_iff {w : Word} {x : Utf16.Lone} :
    (∃ kind, StringKind.ofTerminal w.token.terminal = some kind ∧ Literal.fault? kind w.token = some (.loneSurrogate x)) ↔
      w.SpellsLone x := by
  constructor
  · rintro ⟨kind, hk, hf⟩
    rw [Literal.fault?_eq_some_iff] at hf
    cases ht : w.token.terminal with
    | stringDouble =>
      rw [ht] at hk
      cases hk
      exact ⟨.inl ht, quotedValue_lone_iff.mp hf⟩
    | stringSingle =>
      rw [ht] at hk
      cases hk
      exact ⟨.inr ht, quotedValue_lone_iff.mp hf⟩
    | textBlock =>
      rw [ht] at hk
      cases hk
      cases isSyntax_of_blockValue hf
    | verbatimDouble | verbatimSingle =>
      rw [ht] at hk
      cases hk
      cases hf
    | _ =>
      rw [ht] at hk
      cases hk
  · rintro ⟨ht | ht, hlone⟩
    · exact ⟨.double, by rw [ht]; rfl, Literal.fault?_eq_some_iff.mpr (quotedValue_lone_iff.mpr hlone)⟩
    · exact ⟨.single, by rw [ht]; rfl, Literal.fault?_eq_some_iff.mpr (quotedValue_lone_iff.mpr hlone)⟩

/-! ## Runs -/

section Runs

variable {s s' : State} {ws : List Word} {y : ParseError}

/-- The first fault stays. -/
theorem State.fault_of_run_some (h : s.run ws = some s') (hf : s.fault = some y) : s'.fault = some y := by
  induction ws generalizing s with
  | nil =>
    cases h
    exact hf
  | cons w ws ih =>
    obtain ⟨s₁, hstep, hrun⟩ := State.exists_step_of_run h
    obtain ⟨f, hadds, -⟩ := State.leads_feed hstep.feed
    rw [hf] at hadds
    exact ih hrun hadds

/-- A fault was added by one of the words. -/
theorem State.exists_first_fault (h : s.run ws = some s') (hn : s.fault = none) (hf : s'.fault = some y) :
    ∃ us w vs s₁ s₂, ws = us ++ w :: vs ∧ s.run us = some s₁ ∧ s₁.fault = none ∧ s₁.Step w s₂ ∧
      s₂.fault = some y := by
  induction ws generalizing s with
  | nil =>
    cases h
    rw [hn] at hf
    cases hf
  | cons w ws ih =>
    obtain ⟨s₁, hstep, hrun⟩ := State.exists_step_of_run h
    cases hf₁ : s₁.fault with
    | none =>
      obtain ⟨us, w', vs, s₂, s₃, rfl, hus, hn₂, hstep', hf'⟩ := ih hrun hf₁
      exact ⟨w :: us, w', vs, s₂, s₃, rfl, hstep.run hus, hn₂, hstep', hf'⟩
    | some z =>
      have hlast := State.fault_of_run_some hrun hf₁
      obtain rfl : z = y := Option.some.inj (hlast.symm.trans hf)
      exact ⟨[], w, ws, s, s₁, rfl, rfl, hn, hstep, hf₁⟩

end Runs

/-! ## Texts that are not read to their end -/

theorem isSyntax_lexError (c : Char) (rest : List Char) (place : Position) : (lexError c rest place).isSyntax = true := by
  unfold lexError
  split
  · rfl
  · rfl

/-- A text that is not cut into words up to its end has a fault of syntax. One that is ends as its words leave the
    machine. -/
theorem parseFrom_cases (file : Text) (s : State) (before cs : List Char) (last : Position) :
    (texts (wordsFrom file s before cs) = cs ∧ ∃ s' last', s.run (significant (wordsFrom file s before cs)) = some s' ∧
      parseFrom file s (placeAfter before) last cs = s'.result last') ∨
    (texts (wordsFrom file s before cs) ≠ cs ∧
      ∃ y, parseFrom file s (placeAfter before) last cs = .error y ∧ y.isSyntax = true) := by
  -- on the length of what is left: every move takes at least one character
  induction hn : cs.length using Nat.strongRecOn generalizing s before last cs with
  | _ n ih =>
    subst hn
    match cs with
    | [] =>
      left
      rw [wordsFrom, parseFrom]
      exact ⟨rfl, s, last, rfl, rfl⟩
    | c :: rest =>
      cases hm : Terminal.first s.focus.context.admits (c :: rest) with
      | none =>
        right
        have hwords : wordsFrom file s before (c :: rest) = [] := by rw [wordsFrom]; split <;> simp_all
        have hparse : parseFrom file s (placeAfter before) last (c :: rest) = .error (lexError c rest (placeAfter before)) := by
          rw [parseFrom]; split <;> simp_all
        rw [hwords, hparse]
        exact ⟨(List.cons_ne_nil c rest).symm, _, rfl, isSyntax_lexError ..⟩
      | some p =>
        obtain ⟨t, w⟩ := p
        obtain ⟨text, rest', hc, rfl, hne⟩ := exists_split hm
        have hlt : rest'.length < (c :: rest).length := by
          rw [hc, List.length_append]
          have := List.length_pos_iff.mpr hne
          omega
        rw [hc] at hm ⊢
        cases hi : t.isIgnored with
        | true =>
          rw [wordsFrom_skip hm hi, parseFrom_skip hm hi, texts_cons, significant_skip (by exact hi)]
          obtain ⟨hall, hend⟩ | ⟨hpart, hfault⟩ := ih rest'.length hlt s (before ++ text) rest' last rfl
          · exact .inl ⟨congrArg (text ++ ·) hall, hend⟩
          · exact .inr ⟨fun h => hpart (List.append_cancel_left h), hfault⟩
        | false =>
          cases hf : s.feed (tokenAt file before t text) with
          | none =>
            right
            rw [wordsFrom_refuse hm hi hf, parseFrom_refuse hm hi hf]
            refine ⟨?_, _, rfl, rfl⟩
            intro hnil
            exact hne (List.append_eq_nil_iff.mp hnil.symm).1
          | some s' =>
            rw [wordsFrom_take hm hi hf, parseFrom_take hm hi hf, texts_cons, significant_take (by exact hi)]
            obtain ⟨hall, s'', last', hrun, hresult⟩ | ⟨hpart, hfault⟩ :=
              ih rest'.length hlt s' (before ++ text) rest' (placeAfter before) rfl
            · have hstep : s.Step ⟨before, tokenAt file before t text,
                  s.focus.role (tokenAt file before t text) (nextToken (wordsFrom file s' (before ++ text) rest'))⟩ s' :=
                ⟨Terminal.first_allowed hm, hf⟩
              exact .inl ⟨congrArg (text ++ ·) hall, s'', last', hstep.run hrun, hresult⟩
            · exact .inr ⟨fun h => hpart (List.append_cancel_left h), hfault⟩

/-! ## The fault of a text -/

/-- The text is cut into words up to its end and a program can end there, but the first construct in it that is wrong is
    a string with a lone surrogate. -/
structure HasLone (file : Text) (text : List Char) (x : Utf16.Lone) : Prop where
  whole : texts (words file text) = text
  ends : ∃ s, State.start.run (significant (words file text)) = some s ∧ s.finish.isSome = true
  first : ∃ us w vs s, significant (words file text) = us ++ w :: vs ∧ State.start.run us = some s ∧ s.fault = none ∧
    w.SpellsLone x

theorem State.result_loneSurrogate_iff {s : State} {last : Position} {x : Utf16.Lone} :
    s.result last = .error (.loneSurrogate x) ↔ s.finish.isSome = true ∧ s.fault = some (.loneSurrogate x) := by
  unfold State.result
  cases s.finish with
  | none => simp
  | some e =>
    cases s.fault with
    | none => simp
    | some fault => simp

/-- The first string with a lone surrogate is the fault of the whole run. -/
theorem State.fault_lone_iff {ws : List Word} {s : State} {x : Utf16.Lone} (h : State.start.run ws = some s) :
    s.fault = some (.loneSurrogate x) ↔
      ∃ us w vs s₁, ws = us ++ w :: vs ∧ State.start.run us = some s₁ ∧ s₁.fault = none ∧ w.SpellsLone x := by
  constructor
  · intro hf
    obtain ⟨us, w, vs, s₁, s₂, hws, hus, hn, hstep, hf₂⟩ := State.exists_first_fault h rfl hf
    refine ⟨us, w, vs, s₁, hws, hus, hn, ?_⟩
    obtain ⟨f, hlead, hadds⟩ := State.leads_feed hstep.feed
    obtain rfl : some (.loneSurrogate x) = f := by simpa [hn, hf₂] using hlead
    cases hk : StringKind.ofTerminal w.token.terminal with
    | none => cases hadds.other hk _ rfl
    | some kind => exact Literal.fault?_lone_iff.mp ⟨kind, hk, (hadds.string kind hk).symm⟩
  · rintro ⟨us, w, vs, s₁, rfl, hus, hn, hlone⟩
    obtain ⟨s₁', hus', hrest⟩ := State.exists_run_append h
    obtain rfl : s₁ = s₁' := Option.some.inj (hus.symm.trans hus')
    obtain ⟨s₂, hstep, hrun⟩ := State.exists_step_of_run hrest
    obtain ⟨f, hlead, hadds⟩ := State.leads_feed hstep.feed
    obtain ⟨kind, hk, hfault⟩ := Literal.fault?_lone_iff.mpr hlone
    refine State.fault_of_run_some hrun ?_
    rw [hlead, hn, hadds.string kind hk, hfault]
    rfl

theorem parseChars_loneSurrogate_iff {file : Text} {text : List Char} {x : Utf16.Lone} :
    parseChars file text = .error (.loneSurrogate x) ↔ HasLone file text x := by
  obtain ⟨hall, s, last, hrun, hresult⟩ | ⟨hpart, y, hfault, hsyntax⟩ := parseFrom_cases file .start [] text .origin
  · have hparse : parseChars file text = s.result last := hresult
    rw [hparse, State.result_loneSurrogate_iff, State.fault_lone_iff hrun]
    constructor
    · rintro ⟨hfinish, hfirst⟩
      exact ⟨hall, ⟨s, hrun, hfinish⟩, hfirst⟩
    · rintro ⟨-, ⟨s', hrun', hfinish⟩, hfirst⟩
      obtain rfl : s = s' := Option.some.inj (hrun.symm.trans hrun')
      exact ⟨hfinish, hfirst⟩
  · have hparse : parseChars file text = .error y := hfault
    rw [hparse]
    constructor
    · rintro ⟨⟩
      cases hsyntax
    · intro h
      exact absurd h.whole hpart

/-- Bytes are refused for a lone surrogate exactly when they spell a text whose first fault is one. -/
theorem parse_loneSurrogate_iff {file : Text} {source : Bytes} {x : Utf16.Lone} :
    parse file source = .error (.loneSurrogate x) ↔ ∃ text, Utf8.decode source = .ok text ∧ HasLone file text x := by
  unfold parse
  cases hd : Utf8.decode source with
  | error part => simp
  | ok text => simp [parseChars_loneSurrogate_iff]

end JsonnetLocals
