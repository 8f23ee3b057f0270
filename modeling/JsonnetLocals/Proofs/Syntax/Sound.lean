/-
  JsonnetLocals.Proofs.Syntax.Sound — what is read is a phrase of the grammar.

  `State.Reads` says what the words read so far are to the machine: each construct on the stack has
  read the beginning of a phrase (`Frame.Reads`), an expression of some level goes on there
  (`StackReads`), and the focus has read the rest (`Focus.Reads`). One token keeps it
  (`State.Reads.feed`), so a whole run ends in a derivation of the program (`Scans.derives`).
-/

import JsonnetLocals.Proofs.Syntax.Grammar

namespace JsonnetLocals

/-! ## Parts in progress -/

/-- The words before the next part of a list: none, or the parts before it and a comma. -/
inductive Prior : List Phrase → List Word → Prop
  | nil : Prior [] []
  | comma {ps : List Phrase} {ts : List Word} {w : Word} : Derives (.seq ps) ts → w.Is .comma → Prior ps (ts ++ [w])

def Listed (ps : List Phrase) (ts : List Word) : Prop := Derives (.items ps) ts

theorem Prior.listed {ps : List Phrase} {ts : List Word} (h : Prior ps ts) : Listed ps ts := by
  cases h with
  | nil => exact .noItems
  | comma h hw => exact .itemsComma h hw

/-- The next part after those before it. -/
theorem Prior.snoc {ps : List Phrase} {p : Phrase} {ts us : List Word} (h : Prior ps ts) (hp : Derives p us) :
    Derives (.seq (ps ++ [p])) (ts ++ us) := by
  cases h with
  | nil => exact .one hp
  | comma h hw => exact (Derives.more h hw hp).cast (by simp)

/-- The parts of a list in progress, the last one first, with one more. -/
theorem Prior.push {α : Type} {f : α → Phrase} {xs : List α} {x : α} {ts us : List Word}
    (h : Prior (xs.reverse.map f) ts) (hx : Derives (f x) us) : Derives (.seq ((x :: xs).reverse.map f)) (ts ++ us) := by
  simpa using h.snoc hx

/-- The words of an array in progress, whose elements are read as `list` says. -/
inductive ArrayHead.Reads (list : List Phrase → List Word → Prop) : ArrayHead → List Word → Prop
  | mk {es : List Node} {ts : List Word} {w : Word} :
      w.Is .bracketOpen → list (es.reverse.map (.expr 1)) ts → Reads list ⟨w.range, es⟩ (w :: ts)

inductive BaseReads : Option Node → List Word → Prop
  | none : BaseReads none []
  | some {e : Node} {ts : List Word} : Derives (.expr Level.postfixed e) ts → BaseReads (some e) ts

/-- The words of an object in progress, whose members are read as `list` says. -/
inductive ObjectHead.Reads (list : List Phrase → List Word → Prop) : ObjectHead → List Word → Prop
  | mk {base : Option Node} {ms : List Node} {us ts : List Word} {w : Word} :
      BaseReads base us → w.Is .braceOpen → list (ms.reverse.map .member) ts →
      Reads list ⟨base, w.range, ms⟩ (us ++ w :: ts)

inductive CompHead.Reads : CompHead → List Word → Prop
  | array {h : ArrayHead} {ts : List Word} : h.Reads Listed ts → Reads (.array h) ts
  | object {h : ObjectHead} {ts : List Word} : h.Reads Listed ts → Reads (.object h) ts

inductive SpecsRead : List Node → List Word → Prop
  | nil : SpecsRead [] []
  | some {ss : List Node} {ts : List Word} : Derives (.specs ss.reverse) ts → SpecsRead ss ts

inductive BindPlace.Reads : BindPlace → List Word → Prop
  | inExpr {bs : List (Bind Node)} {ts : List Word} {w : Word} :
      w.Is .kwLocal → Prior (bs.reverse.map .bind) ts → Reads (.inExpr w.range bs) (w :: ts)
  | inObject {object : ObjectHead} {ts : List Word} {w : Word} :
      object.Reads Prior ts → w.Is .kwLocal → Reads (.inObject object w.range) (ts ++ [w])

inductive FieldHead.Reads : FieldHead → List Word → Prop
  | mk {object : ObjectHead} {opening : Range} {k : NameKind} {n : Node} {ts us : List Word} :
      object.Reads Prior ts → Derives (.fieldName opening k n) us → Reads ⟨object, opening, k, n⟩ (ts ++ us)

inductive ParamOwner.Reads : ParamOwner → List Word → Prop
  | function {w : Word} : w.Is .kwFunction → Reads (.function w.range) [w]
  | bind {place : BindPlace} {ts : List Word} {w : Word} :
      place.Reads ts → w.IsName (some .bind) → Reads (.bind place w.token) (ts ++ [w])
  | method {field : FieldHead} {ts : List Word} : field.Reads ts → Reads (.method field) ts

inductive ParamsOpen : ParamOwner → List (Param Node) → List Word → Prop
  | mk {owner : ParamOwner} {ps : List (Param Node)} {ts us : List Word} {w : Word} :
      owner.Reads ts → w.Is .parenOpen → Prior (ps.reverse.map .param) us → ParamsOpen owner ps (ts ++ w :: us)

inductive ParamsRead : Option (List (Param Node)) → List Word → Prop
  | none : ParamsRead none []
  | some {ps : List (Param Node)} {ts : List Word} : Derives (.params ps.reverse) ts → ParamsRead (some ps) ts

inductive ArgumentsOpen : Node → List Argument → List Word → Prop
  | mk {e : Node} {args : List Argument} {ts us : List Word} {w : Word} :
      Derives (.expr Level.postfixed e) ts → w.Is .parenOpen → Prior (args.reverse.map .arg) us →
      ArgumentsOpen e args (ts ++ w :: us)

inductive SubscriptOpen : Node → List Word → Prop
  | mk {e : Node} {ts : List Word} {w : Word} :
      Derives (.expr Level.postfixed e) ts → w.Is .bracketOpen → SubscriptOpen e (ts ++ [w])

inductive StopOpen : Node → Option Node → List Word → Prop
  | mk {e : Node} {a : Option Node} {ts us : List Word} {w : Word} :
      SubscriptOpen e ts → Derives (.opt a) us → w.Is .colon → StopOpen e a (ts ++ us ++ [w])

inductive StepOpen : Node → Option Node → Option Node → List Word → Prop
  | colons {e : Node} {a b : Option Node} {ts us : List Word} {w : Word} :
      StopOpen e a ts → Derives (.opt b) us → w.Is .colon → StepOpen e a b (ts ++ us ++ [w])
  | double {e : Node} {a : Option Node} {ts us : List Word} {w : Word} :
      SubscriptOpen e ts → Derives (.opt a) us → w.Is .colon2 → StepOpen e a none (ts ++ us ++ [w])

/-! ## What a construct and a focus have read -/

/-- The words of a construct up to the expression that it waits for. -/
inductive Frame.Reads : Frame → List Word → Prop
  | unary {s : Symbol} {op : UnaryOp} {w : Word} :
      UnaryOp.ofSymbol s = some op → w.Is s → Reads (.unary op w.range) [w]
  | binary {s : Symbol} {op : BinaryOp} {l : Node} {ts : List Word} {w : Word} :
      BinaryOp.ofSymbol s = some op → Derives (.expr op.level l) ts → w.Is s → Reads (.binary l op) (ts ++ [w])
  | localBody {bs : List (Bind Node)} {ts : List Word} {w v : Word} :
      w.Is .kwLocal → Derives (.seq (bs.reverse.map .bind)) ts → v.Is .semicolon →
      Reads (.localBody w.range bs) (w :: ts ++ [v])
  | thenBranch {c : Node} {ts : List Word} {w v : Word} :
      w.Is .kwIf → Derives (.expr 1 c) ts → v.Is .kwThen → Reads (.thenBranch w.range c) (w :: ts ++ [v])
  | elseBranch {c y : Node} {ts us : List Word} {w v x : Word} :
      w.Is .kwIf → Derives (.expr 1 c) ts → v.Is .kwThen → Derives (.expr 1 y) us → x.Is .kwElse →
      Reads (.elseBranch w.range c y) (w :: ts ++ v :: us ++ [x])
  | functionBody {ps : List (Param Node)} {ts : List Word} {w : Word} :
      w.Is .kwFunction → Derives (.params ps.reverse) ts → Reads (.functionBody w.range ps) (w :: ts)
  | assertRest {c : Node} {ts : List Word} {w v : Word} :
      w.Is .kwAssert → Derives (.expr 1 c) ts → v.Is .semicolon → Reads (.assertRest w.range c none) (w :: ts ++ [v])
  | assertRestMessage {c m : Node} {ts us : List Word} {w v x : Word} :
      w.Is .kwAssert → Derives (.expr 1 c) ts → v.Is .colon → Derives (.expr 1 m) us → x.Is .semicolon →
      Reads (.assertRest w.range c (some m)) (w :: ts ++ v :: us ++ [x])
  | errorBody {w : Word} : w.Is .kwError → Reads (.errorBody w.range) [w]
  | parens {w : Word} : w.Is .parenOpen → Reads (.parens w.range) [w]
  | ifCond {w : Word} : w.Is .kwIf → Reads (.ifCond w.range) [w]
  | assertCond {w : Word} : w.Is .kwAssert → Reads (.assertCond w.range) [w]
  | assertMessage {c : Node} {ts : List Word} {w v : Word} :
      w.Is .kwAssert → Derives (.expr 1 c) ts → v.Is .colon → Reads (.assertMessage w.range c) (w :: ts ++ [v])
  | bindValue {place : BindPlace} {ps : Option (List (Param Node))} {ts us : List Word} {w v : Word} :
      place.Reads ts → w.IsName (some .bind) → ParamsRead ps us → v.Is .eq →
      Reads (.bindValue place w.token ps) (ts ++ w :: us ++ [v])
  | paramValue {owner : ParamOwner} {ps : List (Param Node)} {ts : List Word} {w v : Word} :
      ParamsOpen owner ps ts → w.IsName none → v.Is .eq → Reads (.paramValue owner ps w.token) (ts ++ [w, v])
  | index {e : Node} {ts : List Word} : SubscriptOpen e ts → Reads (.index e) ts
  | sliceStop {e : Node} {a : Option Node} {ts : List Word} : StopOpen e a ts → Reads (.sliceStop e a) ts
  | sliceStep {e : Node} {a b : Option Node} {ts : List Word} : StepOpen e a b ts → Reads (.sliceStep e a b) ts
  | superIndex {w v : Word} : w.Is .kwSuper → v.Is .bracketOpen → Reads (.superIndex w.range) [w, v]
  | argument {e : Node} {args : List Argument} {ts : List Word} :
      ArgumentsOpen e args ts → Reads (.argument e args none) ts
  | namedArgument {e : Node} {args : List Argument} {ts : List Word} {w v : Word} :
      ArgumentsOpen e args ts → w.IsName none → v.Is .eq → Reads (.argument e args (some w.token)) (ts ++ [w, v])
  | element {h : ArrayHead} {ts : List Word} : h.Reads Prior ts → Reads (.element h) ts
  | computedName {object : ObjectHead} {ts : List Word} {w : Word} :
      object.Reads Prior ts → w.Is .bracketOpen → Reads (.computedName object w.range) (ts ++ [w])
  | fieldBody {field : FieldHead} {s : Symbol} {vis : Visibility} {ts : List Word} {v : Word} :
      field.Reads ts → Visibility.ofSymbol s = some vis → v.Is s → Reads (.fieldBody field none false vis) (ts ++ [v])
  | plusBody {field : FieldHead} {s : Symbol} {vis : Visibility} {ts : List Word} {x v : Word} :
      field.Reads ts → x.Is .plus → Visibility.ofSymbol s = some vis → v.Is s →
      Reads (.fieldBody field none true vis) (ts ++ [x, v])
  | methodBody {field : FieldHead} {ps : List (Param Node)} {s : Symbol} {vis : Visibility} {ts us : List Word} {v : Word} :
      field.Reads ts → Derives (.params ps.reverse) us → Visibility.ofSymbol s = some vis → v.Is s →
      Reads (.fieldBody field (some ps) false vis) (ts ++ us ++ [v])
  | objectAssertCond {object : ObjectHead} {ts : List Word} {w : Word} :
      object.Reads Prior ts → w.Is .kwAssert → Reads (.objectAssertCond object w.range) (ts ++ [w])
  | objectAssertMessage {object : ObjectHead} {c : Node} {ts us : List Word} {w v : Word} :
      object.Reads Prior ts → w.Is .kwAssert → Derives (.expr 1 c) us → v.Is .colon →
      Reads (.objectAssertMessage object w.range c) (ts ++ w :: us ++ [v])
  | forSource {head : CompHead} {ss : List Node} {ts us : List Word} {w n v : Word} :
      head.Reads ts → SpecsRead ss us → w.Is .kwFor → n.IsName none → v.Is .kwIn →
      Reads (.forSource head ss w.range n.token) (ts ++ us ++ [w, n, v])
  | ifSpec {head : CompHead} {ss : List Node} {ts us : List Word} {w : Word} :
      head.Reads ts → Derives (.specs ss.reverse) us → w.Is .kwIf → Reads (.ifSpec head ss w.range) (ts ++ us ++ [w])

/-- The words of a focus beyond those of the stack, when `next` is the token that follows. -/
inductive Focus.Reads (next : Option Token) : Focus → List Word → Prop
  | operand : Reads next .operand []
  | whole {e : Node} {c : Context} {ts : List Word} :
      Derives (.expr Level.postfixed e) ts → (c = .afterArguments → Derives (.call e) ts) → Reads next (.whole e c) ts
  | inSuper {w : Word} : w.Is .kwSuper → Reads next (.inSuper w.range) [w]
  | afterSuper {w : Word} : w.Is .kwSuper → Reads next (.afterSuper w.range) [w]
  | superField {w v : Word} : w.Is .kwSuper → v.Is .dot → Reads next (.superField w.range) [w, v]
  | importPath {s : Symbol} {k : ImportKind} {w : Word} :
      ImportKind.ofSymbol s = some k → w.Is s → Reads next (.importPath k w.range) [w]
  | fieldAccess {e : Node} {ts : List Word} {w : Word} :
      Derives (.expr Level.postfixed e) ts → w.Is .dot → Reads next (.fieldAccess e) (ts ++ [w])
  | subscript {e : Node} {ts : List Word} : SubscriptOpen e ts → Reads next (.subscript e) ts
  | sliceStop {e : Node} {a : Option Node} {ts : List Word} : StopOpen e a ts → Reads next (.sliceStop e a) ts
  | sliceStep {e : Node} {a b : Option Node} {ts : List Word} : StepOpen e a b ts → Reads next (.sliceStep e a b) ts
  | argument {e : Node} {args : List Argument} {ts : List Word} :
      ArgumentsOpen e args ts → Reads next (.argument e args) ts
  | argumentName {e : Node} {args : List Argument} {ts : List Word} {w : Word} :
      ArgumentsOpen e args ts → w.IsName (if next.any (·.isSymbol .eq) then none else some .reference) →
      Reads next (.argumentName e args w.token) (ts ++ [w])
  | element {h : ArrayHead} {ts : List Word} : h.Reads Prior ts → Reads next (.element h) ts
  | nextElement {h : ArrayHead} {ts : List Word} : h.Reads Prior ts → Reads next (.nextElement h) ts
  | member {object : ObjectHead} {ts : List Word} : object.Reads Prior ts → Reads next (.member object) ts
  | nextMember {object : ObjectHead} {ts : List Word} : object.Reads Prior ts → Reads next (.nextMember object) ts
  | afterFieldName {field : FieldHead} {c : Context} {ts : List Word} :
      field.Reads ts → Reads next (.afterFieldName field c) ts
  | plusVisibility {field : FieldHead} {ts : List Word} {w : Word} :
      field.Reads ts → w.Is .plus → Reads next (.plusVisibility field) (ts ++ [w])
  | bindName {place : BindPlace} {ts : List Word} : place.Reads ts → Reads next (.bindName place) ts
  | afterBindName {place : BindPlace} {ts : List Word} {w : Word} :
      place.Reads ts → w.IsName (some .bind) → Reads next (.afterBindName place w.token) (ts ++ [w])
  | paramsOpen {w : Word} : w.Is .kwFunction → Reads next (.paramsOpen w.range) [w]
  | param {owner : ParamOwner} {ps : List (Param Node)} {ts : List Word} :
      ParamsOpen owner ps ts → Reads next (.param owner ps) ts
  | afterParamName {owner : ParamOwner} {ps : List (Param Node)} {ts : List Word} {w : Word} :
      ParamsOpen owner ps ts → w.IsName none → Reads next (.afterParamName owner ps w.token) (ts ++ [w])
  | afterParams {owner : ParamOwner} {ps : List (Param Node)} {ts us : List Word} :
      owner.Reads ts → Derives (.params ps.reverse) us → Reads next (.afterParams owner ps) (ts ++ us)
  | forName {head : CompHead} {ss : List Node} {ts us : List Word} {w : Word} :
      head.Reads ts → SpecsRead ss us → w.Is .kwFor → Reads next (.forName head ss w.range) (ts ++ us ++ [w])
  | forIn {head : CompHead} {ss : List Node} {ts us : List Word} {w n : Word} :
      head.Reads ts → SpecsRead ss us → w.Is .kwFor → n.IsName none →
      Reads next (.forIn head ss w.range n.token) (ts ++ us ++ [w, n])

/-! ## The stack -/

/-- The level of the expression that a construct waits for. -/
def Frame.need : Frame → Nat
  | .unary _ _ => Level.unary
  | .binary _ op => op.level + 1
  | _ => 1

/-- The level of the expression that a construct makes. -/
def Frame.level : Frame → Nat
  | .binary _ op => op.level
  | _ => Level.unary

/-- The words of a stack of constructs; an expression of level `l` goes on there. -/
inductive StackReads : List Frame → Nat → List Word → Prop
  | nil : StackReads [] 1 []
  | push {stack : List Frame} {f : Frame} {l : Nat} {ts us : List Word} :
      StackReads stack l ts → f.Reads us → l ≤ f.level → StackReads (f :: stack) f.need (ts ++ us)

/-- The words that the machine has read, when `next` is the token that follows. -/
inductive State.Reads (next : Option Token) : State → List Word → Prop
  | mk {stack : List Frame} {focus : Focus} {fault : Option ParseError} {l : Nat} {ts us : List Word} :
      StackReads stack l ts → focus.Reads next us → Reads next ⟨stack, focus, fault⟩ (ts ++ us)

/-- The words that a move adds to those of the stack below it. -/
inductive Move.Reads (next : Option Token) : Move → List Word → Prop
  | goTo {focus : Focus} {fault : Option ParseError} {ts : List Word} :
      focus.Reads next ts → Reads next ⟨[], focus, fault⟩ ts
  | await {f : Frame} {ts : List Word} : f.Reads ts → f.level = Level.unary → Reads next (.await f) ts

theorem StackReads.cast {stack : List Frame} {l : Nat} {ts us : List Word} (h : StackReads stack l ts) (e : ts = us) :
    StackReads stack l us := e ▸ h

theorem State.Reads.cast {next : Option Token} {s : State} {ts us : List Word} (h : s.Reads next ts) (e : ts = us) :
    s.Reads next us := e ▸ h

theorem Move.Reads.cast {next : Option Token} {m : Move} {ts us : List Word} (h : m.Reads next ts) (e : ts = us) :
    m.Reads next us := e ▸ h

theorem BinaryOp.level_pos (op : BinaryOp) : 1 ≤ op.level := by cases op <;> decide

theorem BinaryOp.level_lt (op : BinaryOp) : op.level < Level.unary := by cases op <;> decide

theorem Frame.need_pos (f : Frame) : 1 ≤ f.need := by
  cases f with
  | binary _ op => exact Nat.le_add_left 1 op.level
  | unary => exact (by decide : 1 ≤ Level.unary)
  | _ => exact Nat.le_refl 1

theorem Frame.need_le (f : Frame) : f.need ≤ Level.unary := by
  cases f with
  | binary _ op => exact op.level_lt
  | unary => exact Nat.le_refl Level.unary
  | _ => exact (by decide : 1 ≤ Level.unary)

section Stack

variable {stack : List Frame} {l : Nat} {ts us : List Word} {next : Option Token}

theorem StackReads.level_le (h : StackReads stack l ts) : l ≤ Level.unary := by
  cases h with
  | nil => decide
  | @push _ f => exact f.need_le

theorem Move.Reads.perform {m : Move} {fault : Option ParseError} (hs : StackReads stack l ts) (hm : m.Reads next us) :
    (State.perform stack fault m).Reads next (ts ++ us) := by
  cases hm with
  | goTo h => exact .mk hs h
  | await h hl => exact (State.Reads.mk (hs.push h (hl ▸ hs.level_le)) .operand).cast (List.append_nil _)

end Stack

/-! ## Closing a construct -/

theorem Word.is_of_isSymbol {w : Word} {s : Symbol} (hw : w.token.terminal ≠ .name → w.role = none)
    (h : w.token.isSymbol s = true) : w.Is s := by
  have ht : w.token.terminal = .symbol s := by simpa [Token.isSymbol] using h
  exact ⟨ht, hw (by simp [ht])⟩

theorem Derives.bindOf {w v : Word} {ps : Option (List (Param Node))} {e : Node} {ts us : List Word}
    (hw : w.IsName (some .bind)) (hp : ParamsRead ps ts) (hv : v.Is .eq) (he : Derives (.expr 1 e) us) :
    Derives (.bind (bindOf w.token ps e)) (w :: ts ++ v :: us) := by
  cases hp with
  | none => exact .valueBind hw hv he
  | some hp => exact .functionBind hw hp hv he

/-- A construct that can end after its expression makes one of its level. -/
theorem Frame.Reads.close {f : Frame} {e e' : Node} {l : Nat} {ts us : List Word} (hf : f.Reads ts)
    (he : Derives (.expr f.need e) us) (hc : f.close e = some (e', l)) : Derives (.expr l e') (ts ++ us) ∧ f.level = l := by
  cases hf <;> simp only [Frame.close, Option.some.injEq, Prod.mk.injEq, reduceCtorEq] at hc
  all_goals obtain ⟨rfl, rfl⟩ := hc
  case unary hs hw => exact ⟨.unary hs hw he, rfl⟩
  case binary hs hl hw => exact ⟨(Derives.binary hs hl hw he).cast (by simp), rfl⟩
  case localBody hw hb hv => exact ⟨(Derives.localIn hw hb hv he).cast (by simp), rfl⟩
  case thenBranch hw hc hv => exact ⟨(Derives.ifThen hw hc hv he).cast (by simp), rfl⟩
  case elseBranch hw hc hv hy hx => exact ⟨(Derives.ifThenElse hw hc hv hy hx he).cast (by simp), rfl⟩
  case functionBody hw hp => exact ⟨.function hw hp he, rfl⟩
  case assertRest hw hc hv => exact ⟨(Derives.assertion hw hc hv he).cast (by simp), rfl⟩
  case assertRestMessage hw hc hv hm hx => exact ⟨(Derives.assertionMessage hw hc hv hm hx he).cast (by simp), rfl⟩
  case errorBody hw => exact ⟨.error hw he, rfl⟩

/-- An operator goes on after every construct that does not bind at least as tightly. -/
theorem Frame.need_le_level {f : Frame} {op : BinaryOp} (h : f.bindsAtLeast op.level = false) : f.need ≤ op.level := by
  cases f with
  | unary => cases h
  | binary _ op' =>
    simp only [Frame.bindsAtLeast, decide_eq_false_iff_not, Nat.not_le] at h
    exact h
  | _ => exact op.level_pos

/-- The operator takes the expression as its left operand, after the constructs that it closes. -/
theorem StackReads.takeOperator {stack stack' : List Frame} {op : BinaryOp} {s : Symbol} {e : Node} {l level : Nat}
    {ts us : List Word} {w : Word} (hs : StackReads stack l ts) (he : Derives (.expr level e) us) (hl : l ≤ level)
    (ho : BinaryOp.ofSymbol s = some op) (hw : w.Is s) (h : State.takeOperator op stack e level = some stack') :
    StackReads stack' (op.level + 1) (ts ++ us ++ [w]) := by
  induction hs generalizing e level us with
  | nil =>
    simp only [State.takeOperator, Option.ite_none_right_eq_some, Option.some.injEq] at h
    obtain ⟨hle, rfl⟩ := h
    exact (StackReads.nil.push (.binary ho (he.looser hle) hw) op.level_pos).cast (by simp)
  | @push rest f l' ts' us' hr hf hlf ih =>
    rw [State.takeOperator] at h
    split at h
    · rename_i hc
      rw [Bool.and_eq_true, decide_eq_true_eq, Bool.not_eq_true'] at hc
      cases h
      exact ((hr.push hf hlf).push (.binary ho (he.looser hc.1) hw) (Frame.need_le_level hc.2)).cast (by simp)
    · split at h
      · rename_i e' level' hc
        obtain ⟨hd, rfl⟩ := hf.close (he.looser hl) hc
        exact (ih hd hlf h).cast (by simp)
      · cases h

/-- The end of the text closes every construct. -/
theorem StackReads.closeAll {stack : List Frame} {e e' : Node} {l level : Nat} {ts us : List Word}
    (hs : StackReads stack l ts) (he : Derives (.expr level e) us) (hl : l ≤ level)
    (h : State.closeAll stack e = some e') : Derives (.expr 1 e') (ts ++ us) := by
  induction hs generalizing e level us with
  | nil =>
    cases h
    exact he.looser hl
  | @push rest f l' ts' us' hr hf hlf ih =>
    rw [State.closeAll] at h
    split at h
    · rename_i e'' level' hc
      obtain ⟨hd, rfl⟩ := hf.close (he.looser hl) hc
      exact (ih hd hlf h).cast (by simp)
    · cases h

/-! ## Finished lists -/

section Finish

variable {next : Option Token} {ts us : List Word} {w : Word}

theorem Move.Reads.done {e : Node} (h : Derives (.expr Level.postfixed e) ts) : (Move.done e).Reads next ts :=
  .goTo (.whole h (nofun))

theorem BaseReads.extend {base : Option Node} {opening close : Range} {ms : List Node} {o : Node}
    (hb : BaseReads base ts) (ho : Derives (.object o) us) (hr : o.range.stop = close.stop) :
    Derives (.expr Level.postfixed (extendBase ⟨base, opening, ms⟩ close o)) (ts ++ us) := by
  cases hb with
  | none => exact .objectExpr ho
  | @some b _ hb =>
    have hc : b.range.upTo close = b.range.upTo o.range := by simp only [Range.upTo, hr]
    simp only [extendBase, hc]
    exact .applyBrace hb ho

theorem ArrayHead.Reads.finish {h : ArrayHead} (hh : h.Reads Listed ts) (hw : w.Is .bracketClose) :
    (finishArray h w.range).Reads next (ts ++ [w]) := by
  obtain ⟨hv, hl⟩ := hh
  exact .done (.array hv hl hw)

theorem ObjectHead.Reads.finish {h : ObjectHead} (hh : h.Reads Listed ts) (hw : w.Is .braceClose) :
    (finishObject h w.range).Reads next (ts ++ [w]) := by
  obtain ⟨hb, hv, hl⟩ := hh
  exact (Move.Reads.done (hb.extend (.object hv hl hw) rfl)).cast (by simp)

theorem ArrayHead.Reads.finishComp {h : ArrayHead} {ss : List Node} (hh : h.Reads Listed ts)
    (hs : Derives (.specs ss.reverse) us) (hw : w.Is .bracketClose)
    (hf : (finishComp (.array h) ss w.range).fault = none) :
    (finishComp (.array h) ss w.range).Reads next (ts ++ us ++ [w]) := by
  obtain ⟨hv, hl⟩ := hh
  rename_i es _ _
  obtain ⟨e, rfl⟩ : ∃ e, es = [e] := by
    simpa [JsonnetLocals.finishComp, elementsFault, List.length_eq_one_iff] using hf
  exact .goTo (.whole (.arrayComp hv hl hs hw) nofun)

theorem ObjectHead.Reads.finishComp {h : ObjectHead} {ss : List Node} (hh : h.Reads Listed ts)
    (hs : Derives (.specs ss.reverse) us) (hw : w.Is .braceClose)
    (hf : (finishComp (.object h) ss w.range).fault = none) :
    (finishComp (.object h) ss w.range).Reads next (ts ++ us ++ [w]) := by
  obtain ⟨hb, hv, hl⟩ := hh
  simp only [JsonnetLocals.finishComp, membersFault] at hf
  split at hf
  · cases hf
  · rename_i hassert
    split at hf
    · rename_i f hfield
      split at hf
      · rename_i hcomputed
        have hcomp := Derives.objectComp hv hl hs hw (by simpa using hassert) hfield hcomputed
        exact .goTo (.whole ((hb.extend hcomp rfl).cast (by simp)) nofun)
      · cases hf
    · cases hf

/-- Arguments of which no positional one follows a named one are those of the call, in order. -/
theorem sortArguments_eq {args : List Argument} (h : (sortArguments args).2 = false) :
    args = (sortArguments args).1.1.map Argument.positional ++ (sortArguments args).1.2.map Argument.named := by
  induction args with
  | nil => rfl
  | cons a rest ih =>
    cases a with
    | positional e => exact congrArg (Argument.positional e :: ·) (ih h)
    | named n =>
      simp only [sortArguments, Bool.or_eq_false_iff, Bool.not_eq_false', List.isEmpty_iff] at h
      have := ih h.1
      rw [h.2] at this
      simp only [sortArguments, h.2]
      simpa using this

theorem ArgumentsOpen.finish {e : Node} {args : List Argument} {us : List Word}
    (he : Derives (.expr Level.postfixed e) ts) {v : Word} (hv : v.Is .parenOpen)
    (ha : Listed (args.reverse.map .arg) us) (hw : w.Is .parenClose)
    (hf : (finishCall e args w.range).fault = none) :
    (finishCall e args w.range).Reads next (ts ++ v :: us ++ [w]) := by
  have hsort : (sortArguments args.reverse).2 = false := by simpa [finishCall] using hf
  have hc := Derives.call he hv (sortArguments_eq hsort ▸ ha) hw
  exact .goTo (.whole (.apply hc) fun _ => hc)

end Finish

/-! ## A token after an expression -/

section Resume

variable {next : Option Token} {ts us : List Word} {w : Word} {m : Move} {e : Node}

theorem ArrayHead.Reads.listed {h : ArrayHead} (hh : h.Reads Prior ts) : h.Reads Listed ts := by
  obtain ⟨hv, hl⟩ := hh
  exact .mk hv hl.listed

theorem ObjectHead.Reads.listed {h : ObjectHead} (hh : h.Reads Prior ts) : h.Reads Listed ts := by
  obtain ⟨hb, hv, hl⟩ := hh
  exact .mk hb hv hl.listed

/-- After a member: the next one, the end of the object, or a spec. -/
theorem ObjectHead.Reads.afterMember {h : ObjectHead} {n : Node} (hh : h.Reads Prior ts) (hn : Derives (.member n) us)
    (hw : w.token.terminal ≠ .name → w.role = none) (hm : afterMember h n w.token = some m) :
    m.Reads next (ts ++ us ++ [w]) := by
  obtain ⟨hb, hv, hl⟩ := hh
  have hseq := hl.push hn
  simp only [JsonnetLocals.afterMember] at hm
  split at hm <;> cases hm
  all_goals
    rename_i ht
    have hw : w.Is _ := ⟨ht, hw (by simp [ht])⟩
  · exact .cast (.goTo (.nextMember (.mk hb hv (.comma hseq hw)))) (by simp)
  · exact ((ObjectHead.Reads.mk hb hv (.items hseq)).finish hw).cast (by simp)
  · exact .cast (.goTo (.forName (.object (.mk hb hv (.items hseq))) .nil hw)) (by simp)

/-- After a spec: the next one, or the end of the comprehension. -/
theorem CompHead.Reads.afterSpec {head : CompHead} {ss : List Node} (hh : head.Reads ts)
    (hs : Derives (.specs ss.reverse) us) (hw : w.token.terminal ≠ .name → w.role = none)
    (hm : afterSpec head ss w.token = some m) (hf : m.fault = none) : m.Reads next (ts ++ us ++ [w]) := by
  simp only [JsonnetLocals.afterSpec] at hm
  split at hm <;> cases hm
  all_goals
    have hw : w.Is _ := ⟨‹w.token.terminal = _›, hw (by simp [‹w.token.terminal = _›])⟩
  · exact .goTo (.forName hh (.some hs) hw)
  · exact .await (.ifSpec hh hs hw) rfl
  · obtain ⟨hh⟩ := hh
    exact hh.finishComp hs hw hf
  · obtain _ | ⟨hh⟩ := hh
    exact hh.finishComp hs hw hf

theorem SpecsRead.push {ss : List Node} {n : Text} {s : Node} {r : Range} (hs : SpecsRead ss ts)
    (h : Derives (.spec (.forSpec n s r)) us) : Derives (.specs (.forSpec n s r :: ss).reverse) (ts ++ us) := by
  cases hs with
  | nil => exact .firstSpec h
  | some hs => simpa using Derives.nextSpec hs h

theorem ParamsOpen.close {owner : ParamOwner} {ps : List (Param Node)} (hw : w.Is .parenClose)
    {v : Word} (ho : owner.Reads ts) (hv : v.Is .parenOpen) (hp : Listed (ps.reverse.map .param) us) :
    Move.Reads next (.goTo (.afterParams owner ps)) (ts ++ v :: us ++ [w]) :=
  .cast (.goTo (.afterParams ho (.params hv hp hw))) (by simp)

/-- A slice with three parts. -/
theorem StepOpen.done {t : Node} {a b c : Option Node} (hs : StepOpen t a b ts) (hc : Derives (.opt c) us)
    (hw : w.Is .bracketClose) :
    Move.Reads next (.done (.slice t a b c (t.range.upTo w.range))) (ts ++ us ++ [w]) := by
  cases hs with
  | colons hs hb hx =>
    obtain ⟨⟨ht, ho⟩, ha, hv⟩ := hs
    exact .cast (.done (.sliceStep ht ho ha hv hb hx hc hw)) (by simp)
  | double hs ha hx =>
    obtain ⟨ht, ho⟩ := hs
    exact .cast (.done (.sliceNoStop ht ho ha hx hc hw)) (by simp)

/-- After an argument: the next one, or the end of the call. -/
theorem ArgumentsOpen.next_argument {t : Node} {args : List Argument} {name : Option Token} (ha : ArgumentsOpen t args ts)
    (hm : Frame.resume e w.token (.argument t args name) = some m) (hp : Derives (.arg (argumentOf name e)) us)
    (hw : w.token.terminal ≠ .name → w.role = none) (hn : m.fault = none) :
    m.Reads next (ts ++ us ++ [w]) := by
  obtain ⟨ht, ho, hargs⟩ := ha
  have hseq := hargs.push hp
  simp only [Frame.resume] at hm
  split at hm
  · cases hm
    exact .cast (.goTo (.argument (.mk ht ho (.comma hseq (Word.is_of_isSymbol hw ‹_›))))) (by simp)
  · simp only [Option.ite_none_right_eq_some, Option.some.injEq] at hm
    obtain ⟨hc, rfl⟩ := hm
    exact (ArgumentsOpen.finish ht ho (.items hseq) (Word.is_of_isSymbol hw hc) hn).cast (by simp)

/-- After the value of a bind: the next bind, or what the binds are for. -/
theorem BindPlace.Reads.resume {place : BindPlace} {name : Token} {ps : Option (List (Param Node))} (hp : place.Reads ts)
    (hm : Frame.resume e w.token (.bindValue place name ps) = some m) (hb : Derives (.bind (bindOf name ps e)) us)
    (hw : w.token.terminal ≠ .name → w.role = none) : m.Reads next (ts ++ us ++ [w]) := by
  cases hp with
  | inExpr hl hbs =>
    have hseq := hbs.push hb
    simp only [Frame.resume] at hm
    split at hm
    · cases hm
      exact .cast (.goTo (.bindName (.inExpr hl (.comma hseq (Word.is_of_isSymbol hw ‹_›))))) (by simp)
    · simp only [Option.ite_none_right_eq_some, Option.some.injEq] at hm
      obtain ⟨ht, rfl⟩ := hm
      exact .cast (.await (.localBody hl hseq (Word.is_of_isSymbol hw ht)) rfl) (by simp)
  | inObject ho hl => exact (ho.afterMember (.objectLocal hl hb) hw hm).cast (by simp)

/-- After the default of a parameter: the next one, or the end of the parameters. -/
theorem ParamsOpen.resume {owner : ParamOwner} {ps : List (Param Node)} {name : Token} (hp : ParamsOpen owner ps ts)
    (hm : Frame.resume e w.token (.paramValue owner ps name) = some m) (hd : Derives (.param (paramOf name (some e))) us)
    (hw : w.token.terminal ≠ .name → w.role = none) : m.Reads next (ts ++ us ++ [w]) := by
  obtain ⟨ho, hopen, hps⟩ := hp
  have hseq := hps.push hd
  simp only [Frame.resume] at hm
  split at hm
  · cases hm
    exact .cast (.goTo (.param (.mk ho hopen (.comma hseq (Word.is_of_isSymbol hw ‹_›))))) (by simp)
  · simp only [Option.ite_none_right_eq_some, Option.some.injEq] at hm
    obtain ⟨ht, rfl⟩ := hm
    exact (ParamsOpen.close (Word.is_of_isSymbol hw ht) ho hopen (.items hseq)).cast (by simp)

/-- After an index: the end of the subscript, or the next part of a slice. -/
theorem SubscriptOpen.resume {target : Node} (hs : SubscriptOpen target ts)
    (hm : Frame.resume e w.token (.index target) = some m) (he : Derives (.expr 1 e) us)
    (hw : w.token.terminal ≠ .name → w.role = none) : m.Reads next (ts ++ us ++ [w]) := by
  simp only [Frame.resume] at hm
  split at hm
  · cases hm
    obtain ⟨ht, ho⟩ := hs
    exact .cast (.done (.index ht ho he (Word.is_of_isSymbol hw ‹_›))) (by simp)
  · split at hm
    · cases hm
      exact .goTo (.sliceStop (.mk hs (.present he) (Word.is_of_isSymbol hw ‹_›)))
    · simp only [Option.ite_none_right_eq_some, Option.some.injEq] at hm
      obtain ⟨ht, rfl⟩ := hm
      exact .goTo (.sliceStep (.double hs (.present he) (Word.is_of_isSymbol hw ht)))

theorem StopOpen.resume {target : Node} {start : Option Node} (hs : StopOpen target start ts)
    (hm : Frame.resume e w.token (.sliceStop target start) = some m) (he : Derives (.expr 1 e) us)
    (hw : w.token.terminal ≠ .name → w.role = none) : m.Reads next (ts ++ us ++ [w]) := by
  simp only [Frame.resume] at hm
  split at hm
  · cases hm
    obtain ⟨⟨ht, ho⟩, ha, hc⟩ := hs
    exact .cast (.done (.slice ht ho ha hc (.present he) (Word.is_of_isSymbol hw ‹_›))) (by simp)
  · simp only [Option.ite_none_right_eq_some, Option.some.injEq] at hm
    obtain ⟨ht, rfl⟩ := hm
    exact .goTo (.sliceStep (.colons hs (.present he) (Word.is_of_isSymbol hw ht)))

/-- After an element: the next one, the end of the array, or a spec. -/
theorem ArrayHead.Reads.resume {h : ArrayHead} (hh : h.Reads Prior ts)
    (hm : Frame.resume e w.token (.element h) = some m) (he : Derives (.expr 1 e) us)
    (hw : w.token.terminal ≠ .name → w.role = none) : m.Reads next (ts ++ us ++ [w]) := by
  obtain ⟨ho, hes⟩ := hh
  have hseq := hes.push he
  simp only [Frame.resume] at hm
  split at hm
  · cases hm
    exact .cast (.goTo (.nextElement (.mk ho (.comma hseq (Word.is_of_isSymbol hw ‹_›))))) (by simp)
  · split at hm
    · cases hm
      exact ((ArrayHead.Reads.mk ho (.items hseq)).finish (Word.is_of_isSymbol hw ‹_›)).cast (by simp)
    · simp only [Option.ite_none_right_eq_some, Option.some.injEq] at hm
      obtain ⟨ht, rfl⟩ := hm
      exact .cast (.goTo (.forName (.array (.mk ho (.items hseq))) .nil (Word.is_of_isSymbol hw ht))) (by simp)

/-- After the condition of an object's assert: its message, or the next member. -/
theorem ObjectHead.Reads.resumeAssert {object : ObjectHead} {v : Word} (ho : object.Reads Prior ts) (hv : v.Is .kwAssert)
    (hm : Frame.resume e w.token (.objectAssertCond object v.range) = some m) (he : Derives (.expr 1 e) us)
    (hw : w.token.terminal ≠ .name → w.role = none) : m.Reads next (ts ++ [v] ++ us ++ [w]) := by
  simp only [Frame.resume] at hm
  split at hm
  · cases hm
    exact .cast (.await (.objectAssertMessage ho hv he (Word.is_of_isSymbol hw ‹_›)) rfl) (by simp)
  · exact (ho.afterMember (.objectAssert hv he) hw hm).cast (by simp)

/-- A construct that waits for the token after its expression. -/
theorem Frame.Reads.resume {f : Frame} (hf : f.Reads ts) (he : Derives (.expr 1 e) us)
    (hw : w.token.terminal ≠ .name → w.role = none) (hm : f.resume e w.token = some m) (hn : m.fault = none) :
    m.Reads next (ts ++ us ++ [w]) := by
  have is : ∀ {s}, w.token.isSymbol s = true → w.Is s := Word.is_of_isSymbol hw
  cases hf with
  | parens hv =>
    simp only [Frame.resume, Option.ite_none_right_eq_some, Option.some.injEq] at hm
    obtain ⟨ht, rfl⟩ := hm
    exact .done (.parens hv he (is ht))
  | ifCond hv =>
    simp only [Frame.resume, Option.ite_none_right_eq_some, Option.some.injEq] at hm
    obtain ⟨ht, rfl⟩ := hm
    exact .await (.thenBranch hv he (is ht)) rfl
  | thenBranch hv hc hx =>
    simp only [Frame.resume, Option.ite_none_right_eq_some, Option.some.injEq] at hm
    obtain ⟨ht, rfl⟩ := hm
    exact .cast (.await (.elseBranch hv hc hx he (is ht)) rfl) (by simp)
  | assertCond hv =>
    simp only [Frame.resume] at hm
    split at hm
    · cases hm
      exact .await (.assertRest hv he (is ‹_›)) rfl
    · simp only [Option.ite_none_right_eq_some, Option.some.injEq] at hm
      obtain ⟨ht, rfl⟩ := hm
      exact .await (.assertMessage hv he (is ht)) rfl
  | assertMessage hv hc hx =>
    simp only [Frame.resume, Option.ite_none_right_eq_some, Option.some.injEq] at hm
    obtain ⟨ht, rfl⟩ := hm
    exact .cast (.await (.assertRestMessage hv hc hx he (is ht)) rfl) (by simp)
  | bindValue hp hv hps hx => exact (hp.resume hm (Derives.bindOf hv hps hx he) hw).cast (by simp)
  | paramValue hp hv hx => exact (hp.resume hm (.paramValue hv hx he) hw).cast (by simp)
  | index hs => exact hs.resume hm he hw
  | sliceStop hs => exact hs.resume hm he hw
  | sliceStep hs =>
    simp only [Frame.resume, Option.ite_none_right_eq_some, Option.some.injEq] at hm
    obtain ⟨ht, rfl⟩ := hm
    exact hs.done (.present he) (is ht)
  | superIndex hv hx =>
    simp only [Frame.resume, Option.ite_none_right_eq_some, Option.some.injEq] at hm
    obtain ⟨ht, rfl⟩ := hm
    exact .done (.superIndex hv hx he (is ht))
  | argument ha => exact ha.next_argument hm (.positional he) hw hn
  | namedArgument ha hv hx => exact (ha.next_argument hm (.named hv hx he) hw hn).cast (by simp)
  | element hh => exact hh.resume hm he hw
  | computedName ho hv =>
    simp only [Frame.resume, Option.ite_none_right_eq_some, Option.some.injEq] at hm
    obtain ⟨ht, rfl⟩ := hm
    exact .cast (.goTo (.afterFieldName (.mk ho (.computedName hv he (is ht))))) (by simp)
  | fieldBody hh hvis hv =>
    obtain ⟨ho, hname⟩ := hh
    exact (ho.afterMember (.field hname hvis hv he) hw hm).cast (by simp)
  | plusBody hh hx hvis hv =>
    obtain ⟨ho, hname⟩ := hh
    exact (ho.afterMember (.fieldPlus hname hx hvis hv he) hw hm).cast (by simp)
  | methodBody hh hps hvis hv =>
    obtain ⟨ho, hname⟩ := hh
    exact (ho.afterMember (.method hname hps hvis hv he) hw hm).cast (by simp)
  | objectAssertCond ho hv => exact ho.resumeAssert hv hm he hw
  | objectAssertMessage ho hv hc hx =>
    exact (ho.afterMember (.objectAssertMessage hv hc hx he) hw hm).cast (by simp)
  | forSource hh hs hv hname hx =>
    exact (hh.afterSpec (hs.push (.forSpec hv hname hx he)) hw hm hn).cast (by simp)
  | ifSpec hh hs hv =>
    exact (hh.afterSpec (by simpa using Derives.nextSpec hs (.ifSpec hv he)) hw hm hn).cast (by simp)
  | _ => cases hm

/-- A token that is no operator goes to the first construct that waits for it. -/
theorem StackReads.takeDivider {stack rest : List Frame} {l level : Nat} (hs : StackReads stack l ts)
    (he : Derives (.expr level e) us) (hl : l ≤ level) (hw : w.token.terminal ≠ .name → w.role = none)
    (h : State.takeDivider w.token stack e = some (rest, m)) (hn : m.fault = none) :
    ∃ l ts' us', StackReads rest l ts' ∧ m.Reads next us' ∧ ts ++ us ++ [w] = ts' ++ us' := by
  induction hs generalizing e level us with
  | nil => cases h
  | @push stack f l' ts' us' hr hf hlf ih =>
    rw [State.takeDivider] at h
    split at h
    · cases h
      exact ⟨_, _, _, hr, hf.resume (he.looser (Nat.le_trans f.need_pos hl)) hw ‹_› hn, by simp⟩
    · split at h
      · rename_i hc
        obtain ⟨hd, rfl⟩ := hf.close (he.looser hl) hc
        obtain ⟨l, vs, vs', h1, h2, h3⟩ := ih hd hlf h
        exact ⟨l, vs, vs', h1, h2, by simpa using h3⟩
      · cases h

variable {stack : List Frame} {fault : Option ParseError} {s' : State}

/-- A token after an expression of some level. -/
theorem StackReads.settle {l level : Nat} (hs : StackReads stack l ts) (he : Derives (.expr level e) us) (hl : l ≤ level)
    (hw : w.token.terminal ≠ .name → w.role = none) (h : State.settle stack fault e level w.token = some s')
    (hn : s'.fault = none) : s'.Reads next (ts ++ us ++ [w]) := by
  simp only [State.settle] at h
  split at h
  · rename_i op ho
    split at ho
    · rename_i ht
      obtain ⟨stack', ht', rfl⟩ := Option.map_eq_some_iff.mp h
      exact .cast (.mk (hs.takeOperator he hl ho ⟨ht, hw (by simp [ht])⟩ ht') .operand) (by simp)
    · cases ho
  · obtain ⟨⟨rest, m⟩, ht, rfl⟩ := Option.map_eq_some_iff.mp h
    obtain ⟨l, vs, vs', h1, h2, h3⟩ := hs.takeDivider he hl hw ht (Option.or_eq_none_iff.mp hn).2
    exact (h2.perform h1).cast h3.symm

/-- A token after an operand with its suffixes. -/
theorem StackReads.afterWhole {l : Nat} (hs : StackReads stack l ts) (he : Derives (.expr Level.postfixed e) us)
    (hc : w.token.terminal = .symbol .kwTailstrict → Derives (.call e) us)
    (hw : w.token.terminal ≠ .name → w.role = none) (h : State.afterWhole stack fault e w.token = some s')
    (hn : s'.fault = none) : s'.Reads next (ts ++ us ++ [w]) := by
  have is : ∀ {s}, w.token.terminal = .symbol s → w.Is s := by
    intro s ht
    exact ⟨ht, hw (by simp [ht])⟩
  simp only [State.afterWhole] at h
  split at h
  · cases h
    exact .cast (.mk hs (.fieldAccess he (is ‹_›))) (by simp)
  · cases h
    exact .cast (.mk hs (.subscript (.mk he (is ‹_›)))) (by simp)
  · cases h
    exact .cast (.mk hs (.argument (.mk he (is ‹_›) .nil))) (by simp)
  · cases h
    exact .cast (.mk hs (.member (.mk (.some he) (is ‹_›) .nil))) (by simp)
  · rename_i ht
    obtain ⟨e', hm, rfl⟩ := Option.map_eq_some_iff.mp h
    simp only [State.makeTailstrict] at hm
    split at hm <;> cases hm
    have hcall := hc ht
    obtain ⟨_, _, _, _⟩ | _ := hcall
    exact .cast (.mk hs (.whole (.tailstrict (hc ht) (is ht)) nofun)) (by simp)
  · exact hs.settle he (Nat.le_trans hs.level_le (by decide)) hw h hn

end Resume

/-! ## A token that starts an operand or a member -/

section Operand

variable {next : Option Token} {ts us : List Word} {w : Word} {m : Move} {stack : List Frame}
  {fault : Option ParseError} {s' : State}

/-- A string without a fault. -/
theorem stringMove_eq {k : StringKind} {finish : Node → Focus} (hk : StringKind.ofTerminal w.token.terminal = some k)
    (hw : w.role = none) (hn : (State.stringMove k w.token finish).fault = none) :
    ∃ e, State.stringMove k w.token finish = .goTo (finish e) ∧ Derives (.string e) [w] ∧ e.range = w.range := by
  cases hv : Literal.stringValue k w.token.text w.token.range.start with
  | error => simp [State.stringMove, hv] at hn
  | ok value =>
    refine ⟨.string (.ofChars value) k w.range, ?_, .stringLiteral hk hw hv, rfl⟩
    simp [State.stringMove, hv, Word.range]

theorem Word.role_of_string {k : StringKind} (hw : w.token.terminal ≠ .name → w.role = none)
    (hk : StringKind.ofTerminal w.token.terminal = some k) : w.role = none := by
  refine hw ?_
  intro ht
  rw [ht] at hk
  cases hk

theorem reads_operandSymbol {s : Symbol} (hw : w.Is s) (hm : State.operandSymbol s w.range = some m) :
    m.Reads next [w] := by
  simp only [State.operandSymbol] at hm
  split at hm
  · cases hm
    exact .await (.unary ‹_› hw) rfl
  · split at hm
    · cases hm
      exact .goTo (.importPath ‹_› hw)
    · split at hm <;> cases hm
      · exact .done (.null hw)
      · exact .done (.true hw)
      · exact .done (.false hw)
      · exact .done (.self hw)
      · exact .done (.dollar hw)
      · exact .goTo (.bindName (.inExpr hw .nil))
      · exact .await (.ifCond hw) rfl
      · exact .goTo (.paramsOpen hw)
      · exact .await (.assertCond hw) rfl
      · exact .await (.errorBody hw) rfl
      · exact .goTo (.afterSuper hw)
      · exact .await (.parens hw) rfl
      · exact .goTo (.element (.mk hw .nil))
      · exact .goTo (.member (.mk .none hw .nil))

theorem reads_operandMove (hr : w.token.terminal = .name → w.role = some .reference)
    (hw : w.token.terminal ≠ .name → w.role = none) (hm : State.operandMove w.token = some m) (hn : m.fault = none) :
    m.Reads next [w] := by
  simp only [State.operandMove] at hm
  split at hm
  · cases hm
    exact .done (.var ⟨‹_›, hr ‹_›⟩)
  · cases hm
    rename_i ht
    exact .done (.number ht (hw (by simp [ht])))
  · rename_i ht
    exact reads_operandSymbol ⟨ht, hw (by simp [ht])⟩ hm
  · obtain ⟨k, hk, rfl⟩ := Option.map_eq_some_iff.mp hm
    obtain ⟨e, he, hd, _⟩ := stringMove_eq hk (Word.role_of_string hw hk) hn
    rw [he]
    exact .goTo (.whole (.string hd) nofun)

theorem StackReads.startOperand {l : Nat} (hs : StackReads stack l ts)
    (hr : w.token.terminal = .name → w.role = some .reference) (hw : w.token.terminal ≠ .name → w.role = none)
    (h : State.startOperand stack fault w.token = some s') (hn : s'.fault = none) : s'.Reads next (ts ++ [w]) := by
  obtain ⟨m, hm, rfl⟩ := Option.map_eq_some_iff.mp h
  exact (reads_operandMove hr hw hm (Option.or_eq_none_iff.mp hn).2).perform hs

theorem ObjectHead.Reads.memberMove {object : ObjectHead} (ho : object.Reads Prior ts) (hr : w.role = none)
    (hm : State.memberMove object w.token = some m) (hn : m.fault = none) : m.Reads next (ts ++ [w]) := by
  simp only [State.memberMove] at hm
  split at hm
  · cases hm
    exact .goTo (.afterFieldName (.mk ho (.idName ⟨‹_›, hr⟩)))
  · cases hm
    exact .await (.computedName ho ⟨‹_›, hr⟩) rfl
  · cases hm
    exact .await (.objectAssertCond ho ⟨‹_›, hr⟩) rfl
  · cases hm
    exact .goTo (.bindName (.inObject ho ⟨‹_›, hr⟩))
  · cases hm
    exact ho.listed.finish ⟨‹_›, hr⟩
  · cases hm
  · obtain ⟨k, hk, rfl⟩ := Option.map_eq_some_iff.mp hm
    obtain ⟨e, he, hd, hrange⟩ := stringMove_eq hk hr hn
    rw [he]
    have hname := Derives.stringName hd
    rw [hrange] at hname
    exact .goTo (.afterFieldName (.mk ho hname))

theorem symbol_of_visibilityOf {vis : Visibility} (hw : w.token.terminal ≠ .name → w.role = none)
    (h : State.visibilityOf w.token = some vis) : ∃ s, Visibility.ofSymbol s = some vis ∧ w.Is s := by
  simp only [State.visibilityOf] at h
  split at h
  · rename_i ht
    exact ⟨_, h, ht, hw (by simp [ht])⟩
  · cases h

end Operand

/-! ## One token -/

/-- Only a call admits `tailstrict` after it. -/
theorem Context.eq_of_admits_tailstrict {c : Context} (h : c.admits (.symbol .kwTailstrict) = true) :
    c = .afterArguments := by
  cases c <;> first | rfl | (revert h; decide)

theorem BinaryOp.eq_kwIn {s : Symbol} (h : BinaryOp.ofSymbol s = some .isIn) : s = .kwIn := by
  cases s <;> first | rfl | cases h

theorem Focus.role_of_ne_name {f : Focus} {t : Token} {next : Option Token} (ht : t.terminal ≠ .name) :
    f.role t next = none := if_neg ht

theorem Focus.role_of_operand {f : Focus} {t : Token} {next : Option Token} (hf : f.context.startsOperand = true)
    (ha : f.context ≠ .argument) (ht : t.terminal = .name) : f.role t next = some .reference := by
  unfold Focus.role
  rw [if_pos ht]
  cases f <;> simp_all [Focus.context, Context.startsOperand]

theorem Focus.role_of_other {f : Focus} {t : Token} {next : Option Token} (hf : f.context.startsOperand = false)
    (hb : ∀ place, f ≠ .bindName place) : f.role t next = none := by
  unfold Focus.role
  split
  · cases f <;> simp_all [Focus.context, Context.startsOperand]
  · rfl

namespace StackReads

variable {stack : List Frame} {fault : Option ParseError} {l : Nat} {ts us vs : List Word} {w : Word} {next : Option Token}
  {s' : State} {e target : Node} {a b : Option Node} {args : List Argument} {opening : Range} {array : ArrayHead}
  {object : ObjectHead} {field : FieldHead} {owner : ParamOwner} {ps : List (Param Node)}

/-- A move on top of the words that the focus has read. -/
theorem move {m : Move} (hs : StackReads stack l ts) (hm : m.Reads next (us ++ [w])) :
    (State.perform stack fault m).Reads next (ts ++ us ++ [w]) := (hm.perform hs).cast (by simp)

/-- An operand that a construct begins with. -/
theorem operandOf {f : Frame} (hs : StackReads stack l ts) (hframe : f.Reads us) (hl : f.level = Level.unary)
    (hr : w.token.terminal = .name → w.role = some .reference) (hw : w.token.terminal ≠ .name → w.role = none)
    (h : State.startOperand (f :: stack) fault w.token = some s') (hn : s'.fault = none) : s'.Reads next (ts ++ us ++ [w]) :=
  (hs.push hframe (hl ▸ hs.level_le)).startOperand hr hw h hn

/-! ### Operands -/

theorem feed_operand (hs : StackReads stack l ts) (hr : w.token.terminal = .name → w.role = some .reference)
    (hw : w.token.terminal ≠ .name → w.role = none) (h : State.feed ⟨stack, .operand, fault⟩ w.token = some s')
    (hn : s'.fault = none) : s'.Reads next (ts ++ [w]) := by
  simp only [State.feed] at h
  split at h
  · rename_i hc
    cases h
    exact .mk hs (.inSuper (Word.is_of_isSymbol hw (Bool.and_eq_true_iff.mp hc).1))
  · exact hs.startOperand hr hw h hn

/-- Without a suffix, `super` behind `in` is the right operand. -/
theorem feed_inSuper {v : Word} (hs : StackReads stack l ts) (hv : v.Is .kwSuper)
    (hw : w.token.terminal ≠ .name → w.role = none) (h : State.feed ⟨stack, .inSuper v.range, fault⟩ w.token = some s')
    (hn : s'.fault = none) : s'.Reads next (ts ++ [v] ++ [w]) := by
  simp only [State.feed] at h
  split at h
  · cases h
    exact hs.move (.goTo (.superField hv (Word.is_of_isSymbol hw ‹_›)))
  · split at h
    · cases h
      exact hs.move (.await (.superIndex hv (Word.is_of_isSymbol hw ‹_›)) rfl)
    · split at h
      · obtain _ | ⟨hrest, hframe, hl⟩ := hs
        cases hframe with
        | binary ho hleft hin =>
          cases BinaryOp.eq_kwIn ho
          exact (hrest.settle (.inSuper hleft hin hv) hl hw h hn).cast (by simp)
      · cases h

theorem feed_afterSuper {v : Word} (hs : StackReads stack l ts) (hv : v.Is .kwSuper)
    (hw : w.token.terminal ≠ .name → w.role = none) (h : State.feed ⟨stack, .afterSuper v.range, fault⟩ w.token = some s') :
    s'.Reads next (ts ++ [v] ++ [w]) := by
  simp only [State.feed] at h
  split at h
  · cases h
    exact hs.move (.goTo (.superField hv (Word.is_of_isSymbol hw ‹_›)))
  · simp only [Option.ite_none_right_eq_some, Option.some.injEq] at h
    obtain ⟨ht, rfl⟩ := h
    exact hs.move (.await (.superIndex hv (Word.is_of_isSymbol hw ht)) rfl)

theorem feed_importPath {s : Symbol} {k : ImportKind} {v : Word} (hs : StackReads stack l ts)
    (hk : ImportKind.ofSymbol s = some k) (hv : v.Is s) (hw : w.token.terminal ≠ .name → w.role = none)
    (h : State.feed ⟨stack, .importPath k v.range, fault⟩ w.token = some s') (hn : s'.fault = none) :
    s'.Reads next (ts ++ [v] ++ [w]) := by
  obtain ⟨kind, hkind, rfl⟩ := Option.map_eq_some_iff.mp h
  obtain ⟨e, he, hd, hrange⟩ := stringMove_eq hkind (Word.role_of_string hw hkind) (Option.or_eq_none_iff.mp hn).2
  rw [he]
  have himport := Derives.importFile hk hv hd
  rw [hrange] at himport
  exact hs.move (.goTo (.whole himport nofun))

/-! ### Subscripts -/

theorem feed_subscript (hs : StackReads stack l ts) (hsub : SubscriptOpen target us)
    (hr : w.token.terminal = .name → w.role = some .reference) (hw : w.token.terminal ≠ .name → w.role = none)
    (h : State.feed ⟨stack, .subscript target, fault⟩ w.token = some s') (hn : s'.fault = none) :
    s'.Reads next (ts ++ us ++ [w]) := by
  simp only [State.feed] at h
  split at h
  · cases h
    exact hs.move (.cast (.goTo (.sliceStop (.mk hsub .absent (Word.is_of_isSymbol hw ‹_›)))) (by simp))
  · split at h
    · cases h
      exact hs.move (.cast (.goTo (.sliceStep (.double hsub .absent (Word.is_of_isSymbol hw ‹_›)))) (by simp))
    · exact hs.operandOf (.index hsub) rfl hr hw h hn

theorem feed_sliceStop (hs : StackReads stack l ts) (hstop : StopOpen target a us)
    (hr : w.token.terminal = .name → w.role = some .reference) (hw : w.token.terminal ≠ .name → w.role = none)
    (h : State.feed ⟨stack, .sliceStop target a, fault⟩ w.token = some s') (hn : s'.fault = none) :
    s'.Reads next (ts ++ us ++ [w]) := by
  simp only [State.feed] at h
  split at h
  · cases h
    obtain ⟨⟨ht, ho⟩, ha, hc⟩ := hstop
    exact hs.move (.cast (.done (.slice ht ho ha hc .absent (Word.is_of_isSymbol hw ‹_›))) (by simp))
  · split at h
    · cases h
      exact hs.move (.cast (.goTo (.sliceStep (.colons hstop .absent (Word.is_of_isSymbol hw ‹_›)))) (by simp))
    · exact hs.operandOf (.sliceStop hstop) rfl hr hw h hn

theorem feed_sliceStep (hs : StackReads stack l ts) (hstep : StepOpen target a b us)
    (hr : w.token.terminal = .name → w.role = some .reference) (hw : w.token.terminal ≠ .name → w.role = none)
    (h : State.feed ⟨stack, .sliceStep target a b, fault⟩ w.token = some s') (hn : s'.fault = none) :
    s'.Reads next (ts ++ us ++ [w]) := by
  simp only [State.feed] at h
  split at h
  · cases h
    exact hs.move (.cast (hstep.done .absent (Word.is_of_isSymbol hw ‹_›)) (by simp))
  · exact hs.operandOf (.sliceStep hstep) rfl hr hw h hn

/-! ### Arguments -/

/-- A name where an argument can start is a reference, unless `=` follows. -/
theorem feed_argument (hs : StackReads stack l ts) (hargs : ArgumentsOpen target args us)
    (hr : w.token.terminal = .name → w.role = if next.any (·.isSymbol .eq) then none else some .reference)
    (hw : w.token.terminal ≠ .name → w.role = none) (h : State.feed ⟨stack, .argument target args, fault⟩ w.token = some s')
    (hn : s'.fault = none) : s'.Reads next (ts ++ us ++ [w]) := by
  simp only [State.feed] at h
  split at h
  · cases h
    obtain ⟨ht, ho, hl⟩ := hargs
    exact hs.move (ArgumentsOpen.finish ht ho hl.listed (Word.is_of_isSymbol hw ‹_›) (Option.or_eq_none_iff.mp hn).2)
  · split at h
    · cases h
      exact hs.move (.goTo (.argumentName hargs ⟨‹_›, hr ‹_›⟩))
    · exact hs.operandOf (.argument hargs) rfl (fun ht => absurd ht ‹_›) hw h hn

theorem feed_argumentName {v : Word} (hs : StackReads stack l ts) (hargs : ArgumentsOpen target args us)
    (hname : v.IsName (if w.token.isSymbol .eq then none else some .reference)) (hw : w.token.terminal ≠ .name → w.role = none)
    (ha : w.token.terminal ≠ .symbol .kwTailstrict)
    (h : State.feed ⟨stack, .argumentName target args v.token, fault⟩ w.token = some s')
    (hn : s'.fault = none) : s'.Reads next (ts ++ (us ++ [v]) ++ [w]) := by
  simp only [State.feed] at h
  split at h
  · cases h
    rename_i ht
    rw [if_pos ht] at hname
    exact hs.move (.cast (.await (.namedArgument hargs hname (Word.is_of_isSymbol hw ht)) rfl) (by simp))
  · rename_i ht
    rw [if_neg ht] at hname
    have hstack := hs.push (.argument hargs) hs.level_le
    exact (hstack.afterWhole (.var hname) (fun ht => absurd ht ha) hw h hn).cast (by simp)

/-! ### Elements, members and fields -/

theorem feed_element (hs : StackReads stack l ts) (hh : array.Reads Prior us)
    (hr : w.token.terminal = .name → w.role = some .reference) (hw : w.token.terminal ≠ .name → w.role = none)
    (h : State.feed ⟨stack, .element array, fault⟩ w.token = some s') (hn : s'.fault = none) :
    s'.Reads next (ts ++ us ++ [w]) := by
  simp only [State.feed] at h
  split at h
  · cases h
    exact hs.move (hh.listed.finish (Word.is_of_isSymbol hw ‹_›))
  · exact hs.operandOf (.element hh) rfl hr hw h hn

theorem feed_nextElement (hs : StackReads stack l ts) (hh : array.Reads Prior us)
    (hr : w.token.terminal = .name → w.role = some .reference) (hw : w.token.terminal ≠ .name → w.role = none)
    (h : State.feed ⟨stack, .nextElement array, fault⟩ w.token = some s') (hn : s'.fault = none) :
    s'.Reads next (ts ++ us ++ [w]) := by
  simp only [State.feed] at h
  split at h
  · cases h
    exact hs.move (hh.listed.finish (Word.is_of_isSymbol hw ‹_›))
  · split at h
    · cases h
      exact hs.move (.cast (.goTo (.forName (.array hh.listed) .nil (Word.is_of_isSymbol hw ‹_›))) (by simp))
    · exact hs.operandOf (.element hh) rfl hr hw h hn

theorem feed_member (hs : StackReads stack l ts) (ho : object.Reads Prior us) (hr : w.role = none)
    (h : State.feed ⟨stack, .member object, fault⟩ w.token = some s') (hn : s'.fault = none) :
    s'.Reads next (ts ++ us ++ [w]) := by
  obtain ⟨m, hm, rfl⟩ := Option.map_eq_some_iff.mp h
  exact hs.move (ho.memberMove hr hm (Option.or_eq_none_iff.mp hn).2)

theorem feed_nextMember (hs : StackReads stack l ts) (ho : object.Reads Prior us) (hr : w.role = none)
    (h : State.feed ⟨stack, .nextMember object, fault⟩ w.token = some s') (hn : s'.fault = none) :
    s'.Reads next (ts ++ us ++ [w]) := by
  simp only [State.feed] at h
  split at h
  · cases h
    exact hs.move (.cast (.goTo (.forName (.object ho.listed) .nil (Word.is_of_isSymbol (fun _ => hr) ‹_›))) (by simp))
  · exact hs.feed_member ho hr h hn

theorem feed_afterFieldName {c : Context} (hs : StackReads stack l ts) (hh : field.Reads us)
    (hw : w.token.terminal ≠ .name → w.role = none) (h : State.feed ⟨stack, .afterFieldName field c, fault⟩ w.token = some s') :
    s'.Reads next (ts ++ us ++ [w]) := by
  simp only [State.feed] at h
  split at h
  · cases h
    exact hs.move (.goTo (.param (.mk (.method hh) (Word.is_of_isSymbol hw ‹_›) .nil)))
  · split at h
    · cases h
      exact hs.move (.goTo (.plusVisibility hh (Word.is_of_isSymbol hw ‹_›)))
    · obtain ⟨vis, hvis, rfl⟩ := Option.map_eq_some_iff.mp h
      obtain ⟨s, hs', hv⟩ := symbol_of_visibilityOf hw hvis
      exact hs.move (.await (.fieldBody hh hs' hv) rfl)

theorem feed_plusVisibility {v : Word} (hs : StackReads stack l ts) (hh : field.Reads us) (hv : v.Is .plus)
    (hw : w.token.terminal ≠ .name → w.role = none) (h : State.feed ⟨stack, .plusVisibility field, fault⟩ w.token = some s') :
    s'.Reads next (ts ++ (us ++ [v]) ++ [w]) := by
  obtain ⟨vis, hvis, rfl⟩ := Option.map_eq_some_iff.mp h
  obtain ⟨s, hs', hx⟩ := symbol_of_visibilityOf hw hvis
  exact hs.move (.cast (.await (.plusBody hh hv hs' hx) rfl) (by simp))

/-! ### Binds and parameters -/

theorem feed_afterBindName {place : BindPlace} {v : Word} (hs : StackReads stack l ts) (hp : place.Reads us)
    (hv : v.IsName (some .bind)) (hw : w.token.terminal ≠ .name → w.role = none)
    (h : State.feed ⟨stack, .afterBindName place v.token, fault⟩ w.token = some s') :
    s'.Reads next (ts ++ (us ++ [v]) ++ [w]) := by
  simp only [State.feed] at h
  split at h
  · cases h
    exact hs.move (.cast (.await (.bindValue hp hv .none (Word.is_of_isSymbol hw ‹_›)) rfl) (by simp))
  · simp only [Option.ite_none_right_eq_some, Option.some.injEq] at h
    obtain ⟨ht, rfl⟩ := h
    exact hs.move (.goTo (.param (.mk (.bind hp hv) (Word.is_of_isSymbol hw ht) .nil)))

theorem feed_param (hs : StackReads stack l ts) (hp : ParamsOpen owner ps us) (hr : w.role = none)
    (h : State.feed ⟨stack, .param owner ps, fault⟩ w.token = some s') : s'.Reads next (ts ++ us ++ [w]) := by
  simp only [State.feed] at h
  split at h
  · cases h
    obtain ⟨ho, hopen, hl⟩ := hp
    exact hs.move (ParamsOpen.close (Word.is_of_isSymbol (fun _ => hr) ‹_›) ho hopen hl.listed)
  · simp only [Option.ite_none_right_eq_some, Option.some.injEq] at h
    obtain ⟨ht, rfl⟩ := h
    exact hs.move (.goTo (.afterParamName hp ⟨ht, hr⟩))

theorem feed_afterParamName {v : Word} (hs : StackReads stack l ts) (hp : ParamsOpen owner ps us) (hv : v.IsName none)
    (hw : w.token.terminal ≠ .name → w.role = none)
    (h : State.feed ⟨stack, .afterParamName owner ps v.token, fault⟩ w.token = some s') :
    s'.Reads next (ts ++ (us ++ [v]) ++ [w]) := by
  simp only [State.feed] at h
  split at h
  · cases h
    exact hs.move (.cast (.await (.paramValue hp hv (Word.is_of_isSymbol hw ‹_›)) rfl) (by simp))
  · obtain ⟨ho, hopen, hl⟩ := hp
    have hseq := hl.push (.param hv)
    split at h
    · cases h
      exact hs.move (.cast (.goTo (.param (.mk ho hopen (.comma hseq (Word.is_of_isSymbol hw ‹_›))))) (by simp))
    · simp only [Option.ite_none_right_eq_some, Option.some.injEq] at h
      obtain ⟨ht, rfl⟩ := h
      exact hs.move (.cast (ParamsOpen.close (Word.is_of_isSymbol hw ht) ho hopen (.items hseq)) (by simp))

/-- After the parameters of a construct comes its body, or what stands in front of it. -/
theorem feed_afterParams (hs : StackReads stack l ts) (ho : owner.Reads us) (hps : Derives (.params ps.reverse) vs)
    (hr : w.token.terminal = .name → w.role = some .reference) (hw : w.token.terminal ≠ .name → w.role = none)
    (h : State.feed ⟨stack, .afterParams owner ps, fault⟩ w.token = some s') (hn : s'.fault = none) :
    s'.Reads next (ts ++ (us ++ vs) ++ [w]) := by
  simp only [State.feed] at h
  cases ho with
  | function hv => exact (hs.push (.functionBody hv hps) hs.level_le).startOperand hr hw h hn
  | bind hp hv =>
    simp only [State.afterParams, Option.ite_none_right_eq_some, Option.some.injEq] at h
    obtain ⟨ht, rfl⟩ := h
    have hframe := Frame.Reads.bindValue hp hv (.some hps) (Word.is_of_isSymbol hw ht)
    exact (Move.Reads.perform hs (.await hframe rfl)).cast (by simp)
  | method hh =>
    obtain ⟨vis, hvis, rfl⟩ := Option.map_eq_some_iff.mp h
    obtain ⟨s, hs', hv⟩ := symbol_of_visibilityOf hw hvis
    exact (Move.Reads.perform hs (.await (.methodBody hh hps hs' hv) rfl)).cast (by simp)

end StackReads

/-- A token keeps what is read. -/
theorem State.Reads.feed {s s' : State} {ts : List Word} {w : Word} {next : Option Token} (h : s.Reads (some w.token) ts)
    (ha : s.focus.context.admits w.token.terminal = true) (hr : w.role = s.focus.role w.token next)
    (hf : s.feed w.token = some s') (hn : s'.fault = none) : s'.Reads next (ts ++ [w]) := by
  obtain ⟨hs, hfocus⟩ := h
  rename_i stack focus fault l ts us
  have hw : w.token.terminal ≠ .name → w.role = none := by
    intro ht
    exact hr.trans (Focus.role_of_ne_name ht)
  have reference (h : focus.context.startsOperand = true) (h' : focus.context ≠ .argument) :
      w.token.terminal = .name → w.role = some .reference := fun ht => hr.trans (Focus.role_of_operand h h' ht)
  have plain (h : focus.context.startsOperand = false) (h' : ∀ place, focus ≠ .bindName place) : w.role = none :=
    hr.trans (Focus.role_of_other h h')
  cases hfocus with
  | operand => exact (hs.feed_operand (reference rfl nofun) hw hf hn).cast (by simp)
  | whole he hcall =>
    refine hs.afterWhole he (fun ht => hcall ?_) hw hf hn
    rw [ht] at ha
    exact Context.eq_of_admits_tailstrict ha
  | inSuper hv => exact hs.feed_inSuper hv hw hf hn
  | afterSuper hv => exact hs.feed_afterSuper hv hw hf
  | superField hv hx =>
    simp only [State.feed, Option.ite_none_right_eq_some, Option.some.injEq] at hf
    obtain ⟨ht, rfl⟩ := hf
    exact hs.move (.done (.superField hv hx ⟨ht, plain rfl (by simp)⟩))
  | importPath hk hv => exact hs.feed_importPath hk hv hw hf hn
  | fieldAccess he hv =>
    simp only [State.feed, Option.ite_none_right_eq_some, Option.some.injEq] at hf
    obtain ⟨ht, rfl⟩ := hf
    exact hs.move (.cast (.done (.fieldAccess he hv ⟨ht, plain rfl (by simp)⟩)) (by simp))
  | subscript hsub => exact hs.feed_subscript hsub (reference rfl nofun) hw hf hn
  | sliceStop hstop => exact hs.feed_sliceStop hstop (reference rfl nofun) hw hf hn
  | sliceStep hstep => exact hs.feed_sliceStep hstep (reference rfl nofun) hw hf hn
  | argument hargs => exact hs.feed_argument hargs (fun ht => by rw [hr, Focus.role, if_pos ht]) hw hf hn
  | argumentName hargs hname =>
    refine hs.feed_argumentName hargs hname hw (fun ht => ?_) hf hn
    rw [ht] at ha
    cases Context.eq_of_admits_tailstrict ha
  | element hh => exact hs.feed_element hh (reference rfl nofun) hw hf hn
  | nextElement hh => exact hs.feed_nextElement hh (reference rfl nofun) hw hf hn
  | member ho => exact hs.feed_member ho (plain rfl (by simp)) hf hn
  | nextMember ho => exact hs.feed_nextMember ho (plain rfl (by simp)) hf hn
  | afterFieldName hh => exact hs.feed_afterFieldName hh hw hf
  | plusVisibility hh hx => exact hs.feed_plusVisibility hh hx hw hf
  | bindName hp =>
    simp only [State.feed, Option.ite_none_right_eq_some, Option.some.injEq] at hf
    obtain ⟨ht, rfl⟩ := hf
    exact hs.move (.goTo (.afterBindName hp ⟨ht, by rw [hr, Focus.role, if_pos ht]⟩))
  | afterBindName hp hv => exact hs.feed_afterBindName hp hv hw hf
  | paramsOpen hv =>
    simp only [State.feed, Option.ite_none_right_eq_some, Option.some.injEq] at hf
    obtain ⟨ht, rfl⟩ := hf
    exact hs.move (.goTo (.param (.mk (.function hv) (Word.is_of_isSymbol hw ht) .nil)))
  | param hp => exact hs.feed_param hp (plain rfl (by simp)) hf
  | afterParamName hp hv => exact hs.feed_afterParamName hp hv hw hf
  | afterParams ho hps => exact hs.feed_afterParams ho hps (reference rfl nofun) hw hf hn
  | forName hh hspecs hv =>
    simp only [State.feed, Option.ite_none_right_eq_some, Option.some.injEq] at hf
    obtain ⟨ht, rfl⟩ := hf
    exact hs.move (.cast (.goTo (.forIn hh hspecs hv ⟨ht, plain rfl (by simp)⟩)) (by simp))
  | forIn hh hspecs hv hname =>
    simp only [State.feed, Option.ite_none_right_eq_some, Option.some.injEq] at hf
    obtain ⟨ht, rfl⟩ := hf
    exact hs.move (.cast (.await (.forSource hh hspecs hv hname (Word.is_of_isSymbol hw ht)) rfl) (by simp))

/-! ## Runs -/

section Fault

variable {stack : List Frame} {fault : Option ParseError} {e : Node} {t : Token} {s s' : State}

theorem State.fault_of_perform {m : Move} (h : State.perform stack fault m = s') (hn : s'.fault = none) : fault = none := by
  subst h
  exact (Option.or_eq_none_iff.mp hn).1

theorem State.fault_of_settle {level : Nat} (h : State.settle stack fault e level t = some s') (hn : s'.fault = none) :
    fault = none := by
  simp only [State.settle] at h
  split at h
  · obtain ⟨_, _, rfl⟩ := Option.map_eq_some_iff.mp h
    exact hn
  · obtain ⟨_, _, h⟩ := Option.map_eq_some_iff.mp h
    exact State.fault_of_perform h hn

theorem State.fault_of_afterWhole (h : State.afterWhole stack fault e t = some s') (hn : s'.fault = none) :
    fault = none := by
  simp only [State.afterWhole] at h
  split at h
  · cases h; exact hn
  · cases h; exact hn
  · cases h; exact hn
  · cases h; exact hn
  · obtain ⟨_, _, rfl⟩ := Option.map_eq_some_iff.mp h
    exact hn
  · exact State.fault_of_settle h hn

theorem State.fault_of_startOperand (h : State.startOperand stack fault t = some s') (hn : s'.fault = none) :
    fault = none := by
  obtain ⟨_, _, h⟩ := Option.map_eq_some_iff.mp h
  exact State.fault_of_perform h hn

theorem State.fault_of_afterParams {owner : ParamOwner} {ps : List (Param Node)}
    (h : State.afterParams stack fault owner ps t = some s') (hn : s'.fault = none) : fault = none := by
  cases owner with
  | function => exact State.fault_of_startOperand h hn
  | bind =>
    simp only [State.afterParams, Option.ite_none_right_eq_some, Option.some.injEq] at h
    exact State.fault_of_perform h.2 hn
  | method =>
    obtain ⟨_, _, h⟩ := Option.map_eq_some_iff.mp h
    exact State.fault_of_perform h hn

/-- A fault stays until the end. -/
theorem State.fault_of_feed (h : s.feed t = some s') (hn : s'.fault = none) : s.fault = none := by
  simp only [State.feed] at h
  split at h
  case h_2 => exact State.fault_of_afterWhole h hn
  case h_24 => exact State.fault_of_afterParams h hn
  all_goals
    (repeat' split at h)
    all_goals
      first
      | exact State.fault_of_startOperand h hn
      | exact State.fault_of_afterWhole h hn
      | exact State.fault_of_settle h hn
      | exact State.fault_of_perform (Option.some.inj h) hn
      | (obtain ⟨_, _, h⟩ := Option.map_eq_some_iff.mp h; exact State.fault_of_perform h hn)
      | (cases h; exact hn)
      | cases h

end Fault

theorem Scans.fault_eq_none {file : Text} {s : State} {before cs : List Char} {ws : List Word} {e : Node}
    (h : Scans file s before cs ws e) : s.fault = none := by
  induction h with
  | stop _ hn => exact hn
  | skip _ _ _ ih => exact ih
  | take _ _ hf _ ih => exact State.fault_of_feed hf ih

theorem State.Reads.finish {s : State} {next : Option Token} {ts : List Word} {e : Node} (h : s.Reads next ts)
    (hf : s.finish = some e) : Derives (.expr 1 e) ts := by
  obtain ⟨hs, hfocus⟩ := h
  cases hfocus <;> simp only [State.finish, reduceCtorEq] at hf
  case whole he _ => exact hs.closeAll he (Nat.le_trans hs.level_le (by decide)) hf
  case inSuper hv =>
    split at hf
    · obtain _ | ⟨hrest, hframe, hl⟩ := hs
      cases hframe with
      | binary ho hleft hin =>
        cases BinaryOp.eq_kwIn ho
        exact (hrest.closeAll (.inSuper hleft hin hv) hl hf).cast (by simp)
    · cases hf

/-- A run that begins after some words ends in a derivation of these words and its own. -/
theorem Scans.derives_append {file : Text} {s : State} {before cs : List Char} {ws ts : List Word} {e : Node}
    (h : Scans file s before cs ws e) (hs : s.Reads (nextToken ws) ts) : Derives (.expr 1 e) (ts ++ significant ws) := by
  induction h generalizing ts with
  | stop hf _ => exact (hs.finish hf).cast (List.append_nil ts).symm
  | @skip s before text rest t ws e hm hi _ ih =>
    have hsig : significant (⟨before, tokenAt file before t text, none⟩ :: ws) = significant ws := significant_skip (by exact hi) ws
    rw [hsig]
    refine ih ?_
    rwa [nextToken, hsig] at hs
  | @take s s' before text rest t ws e hm hi hf hrest ih =>
    let w : Word := ⟨before, tokenAt file before t text, s.focus.role (tokenAt file before t text) (nextToken ws)⟩
    have hsig : significant (w :: ws) = w :: significant ws := significant_take (by exact hi) ws
    have hnext : nextToken (w :: ws) = some w.token := by rw [nextToken, hsig]; rfl
    rw [show significant (_ :: ws) = w :: significant ws from hsig]
    rw [show nextToken (_ :: ws) = some w.token from hnext] at hs
    exact (ih (hs.feed (Terminal.first_allowed hm) rfl hf hrest.fault_eq_none)).cast (by simp)

/-- A text that is read is derived from the grammar. -/
theorem Scans.derives {file : Text} {cs : List Char} {ws : List Word} {e : Node} (h : Scans file .start [] cs ws e) :
    Derives (.expr 1 e) (significant ws) :=
  h.derives_append (.mk .nil .operand)

end JsonnetLocals
