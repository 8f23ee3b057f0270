/-
  JsonnetLocals.Proofs.Syntax.Equivariance — the steps of the machine under other names.

  A step from a renamed state on a renamed token is the renamed step (`State.parts_feed`), and the
  tree that is read at the end is the renamed tree (`State.finish_rename`). So two states that
  differ in the names of binds and variables and in places take tokens that differ in the same way
  to such states again (`State.exists_feed`).
-/

import JsonnetLocals.Proofs.Syntax.Relabel

namespace JsonnetLocals

variable {r : Renaming} {o b : Bool}

/-! ## Steps -/

namespace State

theorem takeOperator_rename (op : BinaryOp) (stack : List Frame) (e : Node) (level : Nat) :
    takeOperator op (stack.map (Frame.rename r)) (e.rename r) level =
      (takeOperator op stack e level).map (List.map (Frame.rename r)) := by
  induction stack generalizing e level with
  | nil =>
    simp only [List.map_nil, takeOperator]
    split <;> rfl
  | cons f stack ih =>
    simp only [List.map_cons, takeOperator, Frame.bindsAtLeast_rename, Frame.close_rename]
    split
    · rfl
    · cases f.close e with
      | none => rfl
      | some p => exact ih p.1 p.2

theorem takeDivider_rename (t : Token) (stack : List Frame) (e : Node) :
    (takeDivider (t.rename r o) (stack.map (Frame.rename r)) (e.rename r)).map (fun p => (p.1, p.2.parts)) =
      (takeDivider t stack e).map fun p => (p.1.map (Frame.rename r), p.2.outline r b) := by
  induction stack generalizing e with
  | nil => rfl
  | cons f stack ih =>
    have hf := Frame.resume_rename (r := r) (o := o) (b := b) f e t
    simp only [List.map_cons, takeDivider, Frame.close_rename]
    cases hm : f.resume e t with
    | some m =>
      rw [hm] at hf
      obtain ⟨m', hm', hparts⟩ := Option.map_eq_some_iff.mp hf
      rw [hm', Option.map_some, Option.map_some, hparts]
    | none =>
      rw [hm] at hf
      rw [Option.map_eq_none_iff.mp hf]
      cases f.close e with
      | none => rfl
      | some p => exact ih p.1

theorem parts_perform {stack : List Frame} {fault : Option ParseError} {m m' : Move} (h : m'.parts = m.outline r b) :
    (perform (stack.map (Frame.rename r)) fault m').parts = (perform stack fault m).outline r b := by
  obtain ⟨hpush, hfocus, hfault⟩ : m'.push = m.push.map (Frame.rename r) ∧ m'.focus = m.focus.rename r b ∧
      m'.fault.isSome = m.fault.isSome := by simpa [Move.parts, Move.outline] using h
  simp [perform, parts, State.outline, State.rename, hpush, hfocus, hfault]

theorem parts_performed {stack : List Frame} {fault : Option ParseError} {m m' : Option Move}
    (h : m'.map Move.parts = m.map (Move.outline r b)) :
    (m'.map (perform (stack.map (Frame.rename r)) fault)).map parts =
      (m.map (perform stack fault)).map (State.outline r b) := by
  cases m with
  | none => rw [Option.map_eq_none_iff.mp h]; rfl
  | some m =>
    obtain ⟨m', rfl, hparts⟩ := Option.map_eq_some_iff.mp h
    exact congrArg some (parts_perform hparts)

theorem settle_rename (stack : List Frame) (fault : Option ParseError) (e : Node) (level : Nat) (t : Token) :
    (settle (stack.map (Frame.rename r)) fault (e.rename r) level (t.rename r o)).map parts =
      (settle stack fault e level t).map (State.outline r b) := by
  simp only [settle, Token.terminal_rename]
  split
  · rw [takeOperator_rename]
    cases takeOperator _ stack e level <;> rfl
  · have hd := takeDivider_rename (r := r) (o := o) (b := b) t stack e
    cases hm : takeDivider t stack e with
    | none =>
      rw [hm] at hd
      rw [Option.map_eq_none_iff.mp hd]
      rfl
    | some p =>
      rw [hm] at hd
      obtain ⟨p', hp', hparts⟩ := Option.map_eq_some_iff.mp hd
      rw [Prod.mk.injEq] at hparts
      rw [hp', Option.map_some, Option.map_some, Option.map_some, Option.map_some, hparts.1, parts_perform hparts.2]

theorem makeTailstrict_rename (e : Node) (t : Token) :
    makeTailstrict (e.rename r) (t.rename r o) = (makeTailstrict e t).map (Node.rename r) := by
  cases e with
  | apply => simp [makeTailstrict, Node.rename, Node.relabel]
  | _ => rfl

theorem afterWhole_rename (stack : List Frame) (fault : Option ParseError) (e : Node) (t : Token) :
    (afterWhole (stack.map (Frame.rename r)) fault (e.rename r) (t.rename r o)).map parts =
      (afterWhole stack fault e t).map (State.outline r b) := by
  simp only [afterWhole, Token.terminal_rename]
  split
  · rfl
  · rfl
  · rfl
  · rfl
  · rw [makeTailstrict_rename]
    cases makeTailstrict e t <;> rfl
  · exact settle_rename ..

end State

namespace Literal

theorem toOption_quotedValue (body : List Char) (p q : Position) :
    (quotedValue body p).toOption = (quotedValue body q).toOption := by
  unfold quotedValue
  cases unescape [] body with
  | error c => rfl
  | ok units => rfl

theorem toOption_map {ε α β : Type} (f : α → β) (x : Except ε α) : (x.map f).toOption = x.toOption.map f := by
  cases x <;> rfl

theorem toOption_dedent (indent : List Char) (p q : Position) (m n : Nat) (ls : List (List Char)) :
    (dedent indent p m ls).toOption = (dedent indent q n ls).toOption := by
  induction ls generalizing m n with
  | nil => rfl
  | cons l ls ih =>
    unfold dedent
    split
    · rw [toOption_map, toOption_map, ih]
    · split
      · rw [toOption_map, toOption_map, ih]
      · rfl

/-- Where a string stands changes neither its value nor whether it has one. -/
theorem toOption_stringValue (kind : StringKind) (text : List Char) (p q : Position) :
    (stringValue kind text p).toOption = (stringValue kind text q).toOption := by
  cases kind with
  | double | single => exact toOption_quotedValue ..
  | verbatimDouble | verbatimSingle => rfl
  | block =>
    simp only [stringValue, blockValue]
    split
    · rfl
    · rw [toOption_map, toOption_map, toOption_dedent]

end Literal

namespace State

theorem stringMove_rename (kind : StringKind) (t : Token) {finish finish' : Node → Focus}
    (h : ∀ e, finish' (e.rename r) = (finish e).rename r b) :
    (stringMove kind (t.rename r false) finish').parts = (stringMove kind t finish).outline r b := by
  have hv := Literal.toOption_stringValue kind t.text Range.unset.start t.range.start
  unfold stringMove
  simp only [Token.text_rename, Token.range_rename]
  cases hx : Literal.stringValue kind t.text t.range.start with
  | ok value =>
    cases hy : Literal.stringValue kind t.text Range.unset.start with
    | ok value' =>
      obtain rfl : value' = value := by simpa [hx, hy, Except.toOption] using hv
      exact congrArg (fun f => Move.parts (.goTo f)) (h (.string (.ofChars value') kind t.range))
    | error => simp [hx, hy, Except.toOption] at hv
  | error fault =>
    cases hy : Literal.stringValue kind t.text Range.unset.start with
    | ok => simp [hx, hy, Except.toOption] at hv
    | error fault' => exact congrArg (fun f => ([], f, true)) (h (.string "" kind t.range))

theorem strings_rename (u : Terminal) (t : Token) {finish finish' : Node → Focus}
    (h : ∀ e, finish' (e.rename r) = (finish e).rename r b) :
    ((StringKind.ofTerminal u).map fun kind => stringMove kind (t.rename r false) finish').map Move.parts =
      ((StringKind.ofTerminal u).map fun kind => stringMove kind t finish).map (Move.outline r b) := by
  cases StringKind.ofTerminal u with
  | none => rfl
  | some kind => exact congrArg some (stringMove_rename kind t h)

theorem operandSymbol_rename (s : Symbol) (range : Range) :
    (operandSymbol s .unset).map Move.parts = (operandSymbol s range).map (Move.outline r b) := by
  cases s <;> rfl

theorem operandMove_rename (t : Token) :
    (operandMove (t.rename r (decide (t.terminal = .name)))).map Move.parts = (operandMove t).map (Move.outline r b) := by
  simp only [operandMove, Token.terminal_rename]
  cases ht : t.terminal with
  | name | number => simp [Node.rename, Node.relabel]
  | symbol s => exact operandSymbol_rename ..
  | _ => exact strings_rename _ t fun _ => rfl

theorem startOperand_rename (stack : List Frame) (fault : Option ParseError) (t : Token) :
    (startOperand (stack.map (Frame.rename r)) fault (t.rename r (decide (t.terminal = .name)))).map parts =
      (startOperand stack fault t).map (State.outline r b) :=
  parts_performed (operandMove_rename t)

theorem afterIn_rename (stack : List Frame) : afterIn (stack.map (Frame.rename r)) = afterIn stack := by
  match stack with
  | [] => rfl
  | f :: _ => cases f with
    | binary e op => cases op <;> rfl
    | _ => rfl

theorem memberMove_rename (h : ObjectHead) (t : Token) :
    (memberMove (h.rename r) (t.rename r false)).map Move.parts = (memberMove h t).map (Move.outline r b) := by
  simp only [memberMove, Token.terminal_rename]
  split
  · rfl
  · rfl
  · rfl
  · rfl
  · exact congrArg some (finishObject_rename ..)
  · rfl
  · exact strings_rename _ t fun _ => rfl

theorem visibilityOf_rename (t : Token) : visibilityOf (t.rename r o) = visibilityOf t := rfl

theorem afterParams_rename (stack : List Frame) (fault : Option ParseError) (w : ParamOwner) (ps : List (Param Node))
    (t : Token) :
    (afterParams (stack.map (Frame.rename r)) fault (w.rename r) (ps.map (Param.relabel r.name id))
      (t.rename r (decide (t.terminal = .name)))).map parts = (afterParams stack fault w ps t).map (State.outline r b) := by
  cases w with
  | function opening => exact startOperand_rename (.functionBody opening ps :: stack) fault t
  | bind p n =>
    simp only [afterParams, ParamOwner.rename, Token.isSymbol_rename]
    split <;> rfl
  | method f =>
    simp only [afterParams, ParamOwner.rename, visibilityOf_rename]
    cases visibilityOf t <;> rfl

/-- Where an operand starts, every name is a reference. -/
theorem isSome_role_operand {f : Focus} (hf : f.context.startsOperand = true) (ha : ∀ e as, f ≠ .argument e as) (t : Token)
    (next : Option Token) : (f.role t next).isSome = decide (t.terminal = .name) := by
  by_cases h : t.terminal = .name
  · cases f <;> simp_all [Focus.role, Focus.context, Context.startsOperand]
  · simp [Focus.role, h]

/-- Elsewhere only the name of a bind plays a part. -/
theorem role_eq_none {f : Focus} (hf : f.context.startsOperand = false) (ha : ∀ p, f ≠ .bindName p) (t : Token)
    (next : Option Token) : f.role t next = none := by
  unfold Focus.role
  split
  · cases f <;> simp_all [Focus.context, Context.startsOperand]
  · rfl

/-- The step from a focus under other names, on the token under other names if `o` says so, is the
    step under other names. -/
def FeedRenames (r : Renaming) (o b : Bool) (stack : List Frame) (fault : Option ParseError) (t : Token) (f : Focus) : Prop :=
  (feed ⟨stack.map (Frame.rename r), f.rename r (!t.isSymbol .eq), fault⟩ (t.rename r o)).map parts =
    (feed ⟨stack, f, fault⟩ t).map (State.outline r b)

section Feed

variable (stack : List Frame) (fault : Option ParseError) (t : Token)

theorem feedRenames_operand : FeedRenames r (decide (t.terminal = .name)) b stack fault t .operand := by
  simp only [FeedRenames, feed, Focus.rename, Token.isSymbol_rename, afterIn_rename]
  split
  · rfl
  · exact startOperand_rename ..

theorem feedRenames_inSuper (opening : Range) : FeedRenames r o b stack fault t (.inSuper opening) := by
  simp only [FeedRenames, feed, Focus.rename, Token.isSymbol_rename]
  split
  · rfl
  · split
    · rfl
    · cases stack with
      | nil => rfl
      | cons f stack =>
        cases f with
        | binary e op =>
          cases op with
          | isIn =>
            have hs := settle_rename (r := r) (o := o) (b := b) stack fault (.inSuper e (e.range.upTo opening)) Level.inSuper t
            simpa [Frame.rename, Node.rename, Node.relabel] using hs
          | _ => rfl
        | _ => rfl

theorem feedRenames_afterSuper (opening : Range) : FeedRenames r o b stack fault t (.afterSuper opening) := by
  simp only [FeedRenames, feed, Focus.rename, Token.isSymbol_rename]
  split
  · rfl
  · split <;> rfl

theorem feedRenames_importPath (k : ImportKind) (opening : Range) :
    FeedRenames r false b stack fault t (.importPath k opening) := by
  simp only [FeedRenames, feed, Focus.rename, Token.terminal_rename]
  cases StringKind.ofTerminal t.terminal with
  | none => rfl
  | some kind => exact congrArg some (parts_perform (stringMove_rename kind t fun _ => rfl))

/-! ### Suffixes -/

theorem feedRenames_fieldAccess (e : Node) : FeedRenames r false b stack fault t (.fieldAccess e) := by
  simp only [FeedRenames, feed, Focus.rename, Token.terminal_rename]
  split
  · simp [perform, Move.done, parts, State.outline, State.rename, Focus.rename, Node.rename, Node.relabel]
  · rfl

theorem feedRenames_subscript (e : Node) : FeedRenames r (decide (t.terminal = .name)) b stack fault t (.subscript e) := by
  simp only [FeedRenames, feed, Focus.rename, Token.isSymbol_rename]
  split
  · rfl
  · split
    · rfl
    · exact startOperand_rename (.index e :: stack) fault t

theorem feedRenames_sliceStop (e : Node) (start : Option Node) :
    FeedRenames r (decide (t.terminal = .name)) b stack fault t (.sliceStop e start) := by
  simp only [FeedRenames, feed, Focus.rename, Token.isSymbol_rename]
  split
  · simp [perform, Move.done, parts, State.outline, State.rename, Focus.rename, Node.rename, Node.relabel]
  · split
    · rfl
    · exact startOperand_rename (.sliceStop e start :: stack) fault t

theorem feedRenames_sliceStep (e : Node) (start stop : Option Node) :
    FeedRenames r (decide (t.terminal = .name)) b stack fault t (.sliceStep e start stop) := by
  simp only [FeedRenames, feed, Focus.rename, Token.isSymbol_rename]
  split
  · simp [perform, Move.done, parts, State.outline, State.rename, Focus.rename, Node.rename, Node.relabel]
  · exact startOperand_rename (.sliceStep e start stop :: stack) fault t

/-- Whether a name is an argument or names one is seen from the token after it. -/
theorem feedRenames_argument (e : Node) (args : List Argument) (next : Option Token) :
    FeedRenames r (Focus.role (.argument e args) t next).isSome (!next.any (·.isSymbol .eq)) stack fault t (.argument e args) := by
  simp only [FeedRenames, feed, Focus.rename, Token.isSymbol_rename, Token.terminal_rename]
  split
  · exact congrArg some (parts_perform (finishCall_rename e args t.range))
  · split
    · rename_i hn
      have ho : (Focus.role (.argument e args) t next).isSome = !next.any (·.isSymbol .eq) := by
        simp only [Focus.role, if_pos hn]
        cases next.any (·.isSymbol .eq) <;> rfl
      rw [ho]
      rfl
    · rename_i hn
      have ho : (Focus.role (.argument e args) t next).isSome = decide (t.terminal = .name) := by
        simp [Focus.role, hn]
      rw [ho]
      exact startOperand_rename (.argument e args none :: stack) fault t

theorem feedRenames_argumentName (e : Node) (args : List Argument) (name : Token) :
    FeedRenames r o b stack fault t (.argumentName e args name) := by
  simp only [FeedRenames, feed, Focus.rename, Token.isSymbol_rename]
  cases he : t.isSymbol .eq with
  | true => rfl
  | false =>
    have hw := afterWhole_rename (r := r) (o := o) (b := b) (.argument e args none :: stack) fault (.var name.spelling name.range) t
    simpa [Frame.rename, Node.rename, Node.relabel] using hw

/-! ### Elements, members and fields -/

theorem feedRenames_element (h : ArrayHead) : FeedRenames r (decide (t.terminal = .name)) b stack fault t (.element h) := by
  simp only [FeedRenames, feed, Focus.rename, Token.isSymbol_rename]
  split
  · exact congrArg some (parts_perform (finishArray_rename h t.range))
  · exact startOperand_rename (.element h :: stack) fault t

theorem feedRenames_nextElement (h : ArrayHead) :
    FeedRenames r (decide (t.terminal = .name)) b stack fault t (.nextElement h) := by
  simp only [FeedRenames, feed, Focus.rename, Token.isSymbol_rename]
  split
  · exact congrArg some (parts_perform (finishArray_rename h t.range))
  · split
    · rfl
    · exact startOperand_rename (.element h :: stack) fault t

theorem feedRenames_nextMember (h : ObjectHead) : FeedRenames r false b stack fault t (.nextMember h) := by
  simp only [FeedRenames, feed, Focus.rename, Token.isSymbol_rename]
  split
  · rfl
  · exact parts_performed (memberMove_rename h t)

theorem feedRenames_afterFieldName (f : FieldHead) (c : Context) : FeedRenames r o b stack fault t (.afterFieldName f c) := by
  simp only [FeedRenames, feed, Focus.rename, Token.isSymbol_rename, visibilityOf_rename]
  split
  · rfl
  · split
    · rfl
    · cases visibilityOf t <;> rfl

theorem feedRenames_plusVisibility (f : FieldHead) : FeedRenames r o b stack fault t (.plusVisibility f) := by
  simp only [FeedRenames, feed, Focus.rename, visibilityOf_rename]
  cases visibilityOf t <;> rfl

/-! ### Binds, parameters and specs -/

theorem feedRenames_bindName (p : BindPlace) (next : Option Token) :
    FeedRenames r (Focus.role (.bindName p) t next).isSome b stack fault t (.bindName p) := by
  simp only [FeedRenames, feed, Focus.rename, Token.terminal_rename]
  split
  · rename_i hn
    simp [Focus.role, hn, perform, Move.goTo, parts, State.outline, State.rename, Focus.rename]
  · rfl

theorem feedRenames_afterBindName (p : BindPlace) (name : Token) : FeedRenames r o b stack fault t (.afterBindName p name) := by
  simp only [FeedRenames, feed, Focus.rename, Token.isSymbol_rename]
  split
  · rfl
  · split <;> rfl

theorem feedRenames_param (w : ParamOwner) (ps : List (Param Node)) : FeedRenames r false b stack fault t (.param w ps) := by
  simp only [FeedRenames, feed, Focus.rename, Token.isSymbol_rename, Token.terminal_rename]
  split
  · rfl
  · split <;> rfl

theorem feedRenames_afterParamName (w : ParamOwner) (ps : List (Param Node)) (name : Token) :
    FeedRenames r o b stack fault t (.afterParamName w ps name) := by
  simp only [FeedRenames, feed, Focus.rename, Token.isSymbol_rename]
  split
  · rfl
  · split
    · rfl
    · split <;> rfl

end Feed

/-- A step from a state under other names, on a token under other names, is the step under other names. -/
theorem parts_feed (s : State) (t : Token) (next : Option Token) :
    ((s.rename r (!t.isSymbol .eq)).feed (t.rename r (s.focus.role t next).isSome)).map parts =
      (s.feed t).map (State.outline r (!next.any (·.isSymbol .eq))) := by
  obtain ⟨stack, focus, fault⟩ := s
  -- the token of an operand is renamed if it is a name, that of any other focus is not
  have operand {b : Bool} (hf : focus.context.startsOperand = true) (ha : ∀ e as, focus ≠ .argument e as)
      (h : FeedRenames r (decide (t.terminal = .name)) b stack fault t focus) :
      FeedRenames r (focus.role t next).isSome b stack fault t focus := by rwa [isSome_role_operand hf ha]
  have plain {b : Bool} (hf : focus.context.startsOperand = false) (ha : ∀ p, focus ≠ .bindName p)
      (h : FeedRenames r false b stack fault t focus) : FeedRenames r (focus.role t next).isSome b stack fault t focus := by
    rwa [role_eq_none hf ha]
  cases focus with
  | operand => exact operand rfl (by simp) (feedRenames_operand stack fault t)
  | whole e c => exact afterWhole_rename ..
  | inSuper opening => exact feedRenames_inSuper stack fault t opening
  | afterSuper opening => exact feedRenames_afterSuper stack fault t opening
  | superField opening =>
    refine plain rfl (by simp) ?_
    simp only [FeedRenames, feed, Focus.rename, Token.terminal_rename]
    split <;> rfl
  | importPath k opening => exact plain rfl (by simp) (feedRenames_importPath stack fault t k opening)
  | fieldAccess e => exact plain rfl (by simp) (feedRenames_fieldAccess stack fault t e)
  | subscript e => exact operand rfl (by simp) (feedRenames_subscript stack fault t e)
  | sliceStop e a => exact operand rfl (by simp) (feedRenames_sliceStop stack fault t e a)
  | sliceStep e a b => exact operand rfl (by simp) (feedRenames_sliceStep stack fault t e a b)
  | argument e args => exact feedRenames_argument stack fault t e args next
  | argumentName e args name => exact feedRenames_argumentName stack fault t e args name
  | element h => exact operand rfl (by simp) (feedRenames_element stack fault t h)
  | nextElement h => exact operand rfl (by simp) (feedRenames_nextElement stack fault t h)
  | member h => exact plain rfl (by simp) (parts_performed (memberMove_rename h t))
  | nextMember h => exact plain rfl (by simp) (feedRenames_nextMember stack fault t h)
  | afterFieldName f c => exact feedRenames_afterFieldName stack fault t f c
  | plusVisibility f => exact feedRenames_plusVisibility stack fault t f
  | bindName p => exact feedRenames_bindName stack fault t p next
  | afterBindName p name => exact feedRenames_afterBindName stack fault t p name
  | paramsOpen opening =>
    simp only [State.rename, feed, Focus.rename, Token.isSymbol_rename]
    split <;> rfl
  | param w ps => exact plain rfl (by simp) (feedRenames_param stack fault t w ps)
  | afterParamName w ps name => exact feedRenames_afterParamName stack fault t w ps name
  | afterParams w ps => exact operand rfl (by simp) (afterParams_rename stack fault w ps t)
  | forName h ss opening =>
    refine plain rfl (by simp) ?_
    simp only [FeedRenames, feed, Focus.rename, Token.terminal_rename]
    split <;> rfl
  | forIn h ss opening name =>
    simp only [State.rename, feed, Focus.rename, Token.isSymbol_rename]
    split <;> rfl

theorem closeAll_rename (stack : List Frame) (e : Node) :
    closeAll (stack.map (Frame.rename r)) (e.rename r) = (closeAll stack e).map (Node.rename r) := by
  induction stack generalizing e with
  | nil => rfl
  | cons f stack ih =>
    simp only [List.map_cons, closeAll, Frame.close_rename]
    cases f.close e with
    | none => rfl
    | some p => exact ih p.1

/-- The tree that is read under other names. -/
theorem finish_rename (s : State) : (s.rename r b).finish = s.finish.map (Node.rename r) := by
  obtain ⟨stack, focus, fault⟩ := s
  cases focus with
  | whole e c => exact closeAll_rename stack e
  | inSuper opening =>
    match stack with
    | [] => rfl
    | f :: stack =>
      cases f with
      | binary e op =>
        cases op with
        | isIn =>
          have hc := closeAll_rename (r := r) stack (.inSuper e (e.range.upTo opening))
          simpa [finish, State.rename, Frame.rename, Focus.rename, Node.rename, Node.relabel] using hc
        | _ => rfl
      | _ => rfl
  | _ => rfl

/-! ## Two runs -/

theorem context_rename (f : Focus) : (f.rename r b).context = f.context := by
  cases f <;> rfl

theorem context_eq {s u : State} {q : Renaming} (h : u.rename q b = s.rename r b) : u.focus.context = s.focus.context := by
  have hfocus : u.focus.rename q b = s.focus.rename r b := congrArg State.focus h
  rw [← context_rename (r := q) (b := b), hfocus, context_rename]

theorem rename_eq_of_outline_eq {s u : State} {q : Renaming} (h : u.outline q b = s.outline r b) (hs : s.fault = none) :
    u.rename q b = s.rename r b := by
  have hparts : ((u.rename q b).stack, (u.rename q b).focus, u.fault.isSome) =
      ((s.rename r b).stack, (s.rename r b).focus, s.fault.isSome) := h
  rw [Prod.mk.injEq, Prod.mk.injEq] at hparts
  obtain ⟨hstack, hfocus, hfault⟩ := hparts
  have hu : u.fault = none := by simpa [hs] using hfault
  rw [State.rename, State.rename, State.mk.injEq]
  exact ⟨hstack, hfocus, hu.trans hs.symm⟩

/-- A state that agrees with `s` up to names and places takes a token that agrees with `t` to one that agrees
    with the state after it. -/
theorem exists_feed {s s' u : State} {t t' : Token} {next : Option Token}
    (hs : u.rename .same (!t.isSymbol .eq) = s.rename r (!t.isSymbol .eq))
    (ht : t'.rename .same true = t.rename r (s.focus.role t next).isSome) (hf : s.feed t = some s') (hnone : s'.fault = none) :
    ∃ u', u.feed t' = some u' ∧
      u'.rename .same (!next.any (·.isSymbol .eq)) = s'.rename r (!next.any (·.isSymbol .eq)) := by
  have hterminal : t'.terminal = t.terminal := by simpa using congrArg Token.terminal ht
  have heq : t'.isSymbol .eq = t.isSymbol .eq := by rw [Token.isSymbol, Token.isSymbol, hterminal]
  have hstep := parts_feed (r := r) s t next
  rw [← hs, ← ht, hf, Token.rename_same, ← Token.rename_same t' (u.focus.role t' next).isSome, ← heq, parts_feed] at hstep
  obtain ⟨u', hu', houtline⟩ := Option.map_eq_some_iff.mp hstep
  exact ⟨u', hu', rename_eq_of_outline_eq houtline hnone⟩

end State

end JsonnetLocals
