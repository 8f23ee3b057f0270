/-
  JsonnetLocals.Proofs.Syntax.Stack — what the machine does with an expression on its stack.

  `State.run` feeds words to the machine, each where its terminal is admitted. While an expression
  is read, the constructs at its right end stay open on the stack: `State.Has stack e` says that
  they and the focus make up `e` on top of `stack`. From there
  - an operator takes the whole of `e` if no body in it can (`State.Has.operator`),
  - any other token goes to the construct on top of `stack` (`State.Has.divider`),
  - the end of the text closes everything (`State.Has.finish`).

  Before an expression, `State.Expects stack` says that an operand can start on top of `stack`.
-/

import JsonnetLocals.Proofs.Syntax.Greedy

namespace JsonnetLocals

/-! ## Runs -/

structure State.Step (s : State) (w : Word) (s' : State) : Prop where
  admits : s.focus.context.admits w.token.terminal = true
  feed : s.feed w.token = some s'

/-- The state after words, if each of them is admitted and can stand where it stands. -/
def State.run (s : State) : List Word → Option State
  | [] => some s
  | w :: ws => if s.focus.context.admits w.token.terminal then (s.feed w.token).bind fun s' => s'.run ws else none

section Run

variable {s s' s'' : State} {w : Word} {ts us : List Word}

theorem State.Step.run (h : s.Step w s') (hr : s'.run ts = some s'') : s.run (w :: ts) = some s'' := by
  rw [State.run, if_pos h.admits, h.feed]
  exact hr

theorem State.Step.run_one (h : s.Step w s') : s.run [w] = some s' := h.run rfl

theorem State.exists_step_of_run (h : s.run (w :: ts) = some s') : ∃ s₁, s.Step w s₁ ∧ s₁.run ts = some s' := by
  rw [State.run] at h
  split at h
  · rename_i hadmits
    obtain ⟨s₁, hfeed, hrun⟩ := Option.bind_eq_some_iff.mp h
    exact ⟨s₁, ⟨hadmits, hfeed⟩, hrun⟩
  · cases h

theorem State.run_append (h : s.run ts = some s') (hr : s'.run us = some s'') : s.run (ts ++ us) = some s'' := by
  induction ts generalizing s with
  | nil =>
    cases h
    exact hr
  | cons w ts ih =>
    obtain ⟨s₁, hstep, hrun⟩ := State.exists_step_of_run h
    exact hstep.run (ih hrun)

theorem State.exists_run_append (h : s.run (ts ++ us) = some s'') : ∃ s', s.run ts = some s' ∧ s'.run us = some s'' := by
  induction ts generalizing s with
  | nil => exact ⟨s, rfl, h⟩
  | cons w ts ih =>
    obtain ⟨s₁, hstep, hrun⟩ := State.exists_step_of_run h
    obtain ⟨s', hts, hus⟩ := ih hrun
    exact ⟨s', hstep.run hts, hus⟩

end Run

/-! ## Expressions on the stack -/

def stackNeed : List Frame → Nat
  | [] => 1
  | f :: _ => f.need

inductive State.Expects : State → List Frame → Prop
  | operand {stack : List Frame} : Expects ⟨stack, .operand, none⟩ stack
  | subscript {stack : List Frame} {e : Node} : Expects ⟨stack, .subscript e, none⟩ (.index e :: stack)
  | sliceStop {stack : List Frame} {e : Node} {a : Option Node} :
      Expects ⟨stack, .sliceStop e a, none⟩ (.sliceStop e a :: stack)
  | sliceStep {stack : List Frame} {e : Node} {a b : Option Node} :
      Expects ⟨stack, .sliceStep e a b, none⟩ (.sliceStep e a b :: stack)
  | argument {stack : List Frame} {e : Node} {args : List Argument} :
      Expects ⟨stack, .argument e args, none⟩ (.argument e args none :: stack)
  | element {stack : List Frame} {h : ArrayHead} : Expects ⟨stack, .element h, none⟩ (.element h :: stack)
  | nextElement {stack : List Frame} {h : ArrayHead} : Expects ⟨stack, .nextElement h, none⟩ (.element h :: stack)
  | functionBody {stack : List Frame} {opening : Range} {ps : List (Param Node)} :
      Expects ⟨stack, .afterParams (.function opening) ps, none⟩ (.functionBody opening ps :: stack)

def Context.isAfterOperand : Context → Bool
  | .afterOperand | .afterString | .afterArguments => true
  | _ => false

/-- The focus has read the expression, which goes on top of the stack. -/
inductive State.Holds : State → List Frame → Node → Prop
  | whole {stack : List Frame} {e : Node} {c : Context} :
      e.level = Level.postfixed → c.isAfterOperand = true → Holds ⟨stack, .whole e c, none⟩ stack e
  | name {stack : List Frame} {e : Node} {args : List Argument} {t : Token} :
      Holds ⟨stack, .argumentName e args t, none⟩ (.argument e args none :: stack) (.var t.spelling t.range)
  | inSuper {stack : List Frame} {left : Node} {opening : Range} :
      Holds ⟨.binary left .isIn :: stack, .inSuper opening, none⟩ stack (.inSuper left (left.range.upTo opening))

/-- The constructs close around one expression and make the other. -/
inductive Pending : List Frame → Node → Node → Prop
  | nil {e : Node} : Pending [] e e
  | cons {f : Frame} {fs : List Frame} {x y e : Node} :
      f.close x = some (y, y.level) → f.need ≤ x.level → Pending fs y e → Pending (f :: fs) x e

/-- The machine has read an expression on top of the stack. -/
def State.Has (s : State) (stack : List Frame) (e : Node) : Prop :=
  ∃ fs x, s.Holds (fs ++ stack) x ∧ Pending fs x e

theorem Node.closed_of_level {e : Node} (h : e.level = Level.postfixed) : e.Closed := by
  cases e
  case binary _ op _ _ => exact absurd (Nat.lt_of_le_of_lt (Nat.le_of_eq h.symm) op.level_lt) (by decide)
  all_goals first | exact ⟨rfl, fun _ => rfl, rfl⟩ | cases h

theorem State.Holds.closed {s : State} {stack : List Frame} {e : Node} (h : s.Holds stack e) : e.Closed := by
  cases h with
  | whole hl _ => exact Node.closed_of_level hl
  | name | inSuper => exact ⟨rfl, fun _ => rfl, rfl⟩

theorem State.Holds.fault_eq {s : State} {stack : List Frame} {e : Node} (h : s.Holds stack e) : s.fault = none := by
  cases h <;> rfl

theorem State.Holds.has {s : State} {stack : List Frame} {e : Node} (h : s.Holds stack e) : s.Has stack e := ⟨[], e, h, .nil⟩

namespace Pending

variable {fs : List Frame} {f : Frame} {x y e : Node} {k : Nat}

theorem snoc (h : Pending fs x e) (hc : f.close e = some (y, y.level)) (hn : f.need ≤ e.level) :
    Pending (fs ++ [f]) x y := by
  induction h with
  | nil => exact .cons hc hn .nil
  | cons hc' hn' _ ih => exact .cons hc' hn' (ih hc hn)

end Pending

/-- A construct that ends with the expression is read when the expression is. -/
theorem State.Has.close {s : State} {stack : List Frame} {f : Frame} {b e : Node} (h : s.Has (f :: stack) b)
    (hc : f.close b = some (e, e.level)) (hn : f.need ≤ b.level) : s.Has stack e := by
  obtain ⟨fs, x, hx, hp⟩ := h
  exact ⟨fs ++ [f], x, by rwa [List.append_assoc], hp.snoc hc hn⟩

/-! ## What can be attached -/

namespace Frame

variable {f : Frame} {b e : Node} {l k : Nat}

theorem takes_close (h : f.close b = some (e, l)) (ht : b.takes k = true) : e.takes k = true := by
  cases f <;> simp only [close, Option.some.injEq, Prod.mk.injEq, reduceCtorEq] at h
  all_goals obtain ⟨rfl, -⟩ := h
  case unary | binary => exact ht
  all_goals rw [Node.takes, ht, Bool.or_true]

theorem endsOpen_close (h : f.close b = some (e, l)) (ho : b.endsOpen = true) : e.endsOpen = true := by
  cases f <;> simp only [close, Option.some.injEq, Prod.mk.injEq, reduceCtorEq] at h
  all_goals obtain ⟨rfl, -⟩ := h
  case thenBranch => rfl
  all_goals exact ho

/-- A construct in which an operator can go on takes it, or is an operation that binds less tightly. -/
theorem takes_or_lt_of_close (h : f.close b = some (e, l)) (hn : f.need ≤ b.level) (hk : k < Level.unary)
    (hb : f.bindsAtLeast k = false ∨ b.level < k) (hl : k ≤ b.lastLevel) :
    e.takes k = true ∨ e.level < k ∧ k ≤ e.lastLevel := by
  cases f <;> simp only [close, Option.some.injEq, Prod.mk.injEq, reduceCtorEq] at h
  all_goals obtain ⟨rfl, -⟩ := h
  case unary =>
    refine absurd (hb.resolve_left (by simp [bindsAtLeast])) ?_
    exact Nat.not_lt.mpr (Nat.le_trans (Nat.le_of_lt hk) hn)
  case binary left op =>
    have hlt : op.level < k := by
      rcases hb with hb | hb
      · simpa [bindsAtLeast] using hb
      · exact Nat.lt_trans hn hb
    exact .inr ⟨hlt, hl⟩
  all_goals exact .inl (by rw [Node.takes, decide_eq_true hl, Bool.true_or])

/-- What a construct makes has a last operand at least as tight. -/
theorem level_le_lastLevel (h : f.close b = some (e, l)) (hn : f.need ≤ b.level) (hb : b.level ≤ b.lastLevel) :
    e.level ≤ e.lastLevel := by
  cases f <;> simp only [close, Option.some.injEq, Prod.mk.injEq, reduceCtorEq] at h
  all_goals obtain ⟨rfl, -⟩ := h
  case binary => exact Nat.le_trans (Nat.le_of_lt hn) hb
  all_goals exact Nat.le_refl _

theorem level_le (f : Frame) : f.level ≤ Level.unary := by
  cases f with
  | binary _ op => exact Nat.le_of_lt op.level_lt
  | _ => exact Nat.le_refl _

theorem bindsAtLeast_of_need_le {op : BinaryOp} (h : f.need ≤ op.level) : f.bindsAtLeast op.level = false := by
  cases f with
  | unary => exact absurd h (Nat.not_le.mpr op.level_lt)
  | binary _ op' => exact decide_eq_false (Nat.not_le.mpr h)
  | _ => rfl

/-- A construct that can end with its expression waits for no token but `else`. -/
theorem resume_of_close {t : Token} (h : f.close b = some (e, l)) (he : t.isSymbol .kwElse = true → e.endsOpen = false) :
    f.resume b t = none := by
  cases f <;> simp only [close, Option.some.injEq, Prod.mk.injEq, reduceCtorEq] at h
  case thenBranch =>
    obtain ⟨rfl, -⟩ := h
    exact if_neg fun ht => absurd (he ht) (by simp [Node.endsOpen])
  all_goals rfl

end Frame

namespace Pending

variable {fs stack : List Frame} {x e : Node} {k : Nat}

theorem takes (h : Pending fs x e) (ht : x.takes k = true) : e.takes k = true := by
  induction h with
  | nil => exact ht
  | cons hc _ _ ih => exact ih (Frame.takes_close hc ht)

theorem endsOpen (h : Pending fs x e) (ho : x.endsOpen = true) : e.endsOpen = true := by
  induction h with
  | nil => exact ho
  | cons hc _ _ ih => exact ih (Frame.endsOpen_close hc ho)

theorem takes_or_lt (h : Pending fs x e) (hk : k < Level.unary) (hx : x.level < k) (hl : k ≤ x.lastLevel) :
    e.takes k = true ∨ e.level < k := by
  induction h with
  | nil => exact .inr hx
  | cons hc hn hp ih =>
    rcases Frame.takes_or_lt_of_close hc hn hk (.inr hx) hl with ht | ⟨hlt, hle⟩
    · exact .inl (hp.takes ht)
    · exact ih hlt hle

/-- An operator that no body takes closes the constructs, and then takes the expression that they
    make. -/
theorem takeOperator {op : BinaryOp} (h : Pending fs x e) (hx : x.level ≤ x.lastLevel) (ht : e.takes op.level = false)
    (hl : op.level ≤ e.level) (hs : stackNeed stack ≤ op.level) :
    State.takeOperator op (fs ++ stack) x x.level = some (.binary e op :: stack) := by
  induction h with
  | nil =>
    cases stack with
    | nil => simp [State.takeOperator, hl]
    | cons f rest => simp [State.takeOperator, hl, Frame.bindsAtLeast_of_need_le hs]
  | @cons f fs x y e hc hn hp ih =>
    have hstays : (decide (op.level ≤ x.level) && !f.bindsAtLeast op.level) = false := by
      by_contra hne
      simp only [Bool.not_eq_false, Bool.and_eq_true, decide_eq_true_eq, Bool.not_eq_true'] at hne
      have hop : op.level ≤ x.lastLevel := Nat.le_trans hne.1 hx
      rcases Frame.takes_or_lt_of_close hc hn op.level_lt (.inl hne.2) hop with hy | ⟨hlt, hle⟩
      · rw [hp.takes hy] at ht
        cases ht
      · rcases hp.takes_or_lt op.level_lt hlt hle with he | he
        · rw [he] at ht
          cases ht
        · omega
    rw [List.cons_append, State.takeOperator, hstays, hc]
    exact ih (Frame.level_le_lastLevel hc hn hx) ht hl

/-- A token that no construct at the right end waits for passes them all. -/
theorem takeDivider {t : Token} {f : Frame} {m : Move} (h : Pending fs x e) (hr : f.resume e t = some m)
    (he : t.isSymbol .kwElse = true → e.endsOpen = false) :
    State.takeDivider t (fs ++ f :: stack) x = some (stack, m) := by
  induction h with
  | nil => simp [State.takeDivider, hr]
  | @cons f fs x y e hc hn hp ih =>
    have hnone : f.resume x t = none := by
      refine Frame.resume_of_close hc fun ht => ?_
      by_contra ho
      rw [hp.endsOpen (by simpa using ho)] at he
      cases he ht
    rw [List.cons_append, State.takeDivider, hnone]
    simp only [hc]
    exact ih hr he

theorem closeAll (h : Pending fs x e) : State.closeAll fs x = some e := by
  induction h with
  | nil => rfl
  | cons hc _ _ ih =>
    rw [State.closeAll, hc]
    exact ih

end Pending

/-! ## A token after an expression -/

def Symbol.isSuffix : Symbol → Bool
  | .dot | .bracketOpen | .parenOpen | .braceOpen | .kwTailstrict => true
  | _ => false

theorem Context.admits_symbol_iff {c : Context} {u : Symbol} : c.admits (.symbol u) = true ↔ u ∈ c.symbols := by
  simp [Context.admits, Terminal.isIgnored]

theorem Context.follows {c : Context} {u : Symbol} (hc : c.isAfterOperand = true) (hu : u ∈ Context.followSymbols) :
    u ∈ c.symbols := by
  cases c <;> cases hc
  all_goals simp [Context.symbols, hu]

section After

variable {s : State} {stack : List Frame} {e : Node} {w : Word} {u : Symbol}

theorem Word.Is.isSymbol_of_ne {v : Symbol} (hw : w.Is u) (hv : u ≠ v) : w.token.isSymbol v = false := by
  simpa [Token.isSymbol, hw.1] using hv

/-- Any other token settles what the focus holds. -/
theorem State.Holds.feed_eq (h : s.Holds stack e) (hw : w.Is u) (hu : u.isSuffix = false) (heq : u ≠ .eq) :
    s.feed w.token = State.settle stack none e e.level w.token := by
  cases h with
  | whole hl _ =>
    rw [hl]
    simp only [State.feed, State.afterWhole, hw.1]
    cases u <;> first | rfl | cases hu
  | name =>
    simp only [State.feed, hw.isSymbol_of_ne heq, State.afterWhole, hw.1]
    cases u <;> first | rfl | cases hu
  | inSuper =>
    have hdot : u ≠ .dot := by rintro rfl; cases hu
    have hopen : u ≠ .bracketOpen := by rintro rfl; cases hu
    simp only [State.feed, hw.isSymbol_of_ne hdot, hw.isSymbol_of_ne hopen]
    rfl

/-- An operator can follow every operand. -/
theorem State.Holds.admits_operator {op : BinaryOp} (h : s.Holds stack e) (ho : BinaryOp.ofSymbol u = some op) :
    s.focus.context.admits (.symbol u) = true := by
  have hu : u ∈ Context.followSymbols ∧ u ∈ Context.argumentNameSymbols := by
    cases u <;> first | decide | cases ho
  rw [Context.admits_symbol_iff]
  cases h with
  | whole _ hc => exact Context.follows hc hu.1
  | name => exact hu.2
  | inSuper => exact hu.1

/-- An operator that no body in the expression takes has the whole expression as its left operand. -/
theorem State.Has.operator {op : BinaryOp} (h : s.Has stack e) (ho : BinaryOp.ofSymbol u = some op) (hw : w.Is u)
    (ht : e.takes op.level = false) (hl : op.level ≤ e.level) (hs : stackNeed stack ≤ op.level) :
    s.Step w ⟨.binary e op :: stack, .operand, none⟩ := by
  obtain ⟨fs, x, hx, hp⟩ := h
  have hsuffix : u.isSuffix = false := by cases u <;> first | rfl | cases ho
  have heq : u ≠ .eq := by rintro rfl; cases ho
  have htake := hp.takeOperator (Nat.le_of_eq hx.closed.lastLevel.symm) ht hl hs
  refine ⟨by rw [hw.1]; exact hx.admits_operator ho, ?_⟩
  rw [hx.feed_eq hw hsuffix heq]
  simp only [State.settle, hw.1, ho, htake]
  rfl

def Symbol.isDivider : Symbol → Bool
  | .semicolon | .kwThen | .kwElse | .parenClose | .comma | .bracketClose | .colon | .colon2 | .kwFor | .braceClose
  | .kwIf => true
  | _ => false

theorem isDivider_of_afterMember {object : ObjectHead} {n : Node} {t : Token} {m : Move} (ht : t.terminal = .symbol u)
    (h : afterMember object n t = some m) : u.isDivider = true := by
  cases u <;> first | rfl | (simp only [afterMember, ht] at h; cases h)

theorem isDivider_of_afterSpec {head : CompHead} {ss : List Node} {t : Token} {m : Move} (ht : t.terminal = .symbol u)
    (h : afterSpec head ss t = some m) : u.isDivider = true := by
  cases u <;> first | rfl | (simp only [afterSpec, ht] at h; cases h)

theorem isDivider_of_resume {f : Frame} {t : Token} {m : Move} (ht : t.terminal = .symbol u)
    (h : f.resume e t = some m) : u.isDivider = true := by
  have is {v : Symbol} (hv : t.isSymbol v = true) : u = v := by simpa [Token.isSymbol, ht] using hv
  cases f
  case bindValue place _ _ =>
    cases place
    · simp only [Frame.resume] at h
      (repeat' split at h) <;> first | (rename_i hv; rw [is hv]; rfl) | cases h
    · exact isDivider_of_afterMember ht h
  case fieldBody | objectAssertMessage => exact isDivider_of_afterMember ht h
  case forSource | ifSpec => exact isDivider_of_afterSpec ht h
  case objectAssertCond =>
    simp only [Frame.resume] at h
    split at h
    · rename_i hv
      rw [is hv]
      rfl
    · exact isDivider_of_afterMember ht h
  case unary | binary | localBody | elseBranch | functionBody | assertRest | errorBody => cases h
  all_goals
    simp only [Frame.resume] at h
    (repeat' split at h) <;> first | (rename_i hv; rw [is hv]; rfl) | cases h

/-- After the name of an argument, the call waits for a comma or the end. -/
theorem mem_of_resume_argument {target : Node} {args : List Argument} {t : Token} {m : Move}
    (ht : t.terminal = .symbol u) (h : (Frame.argument target args none).resume e t = some m) :
    u ∈ Context.argumentNameSymbols := by
  have is {v : Symbol} (hv : t.isSymbol v = true) : u = v := by simpa [Token.isSymbol, ht] using hv
  simp only [Frame.resume] at h
  split at h
  · rw [is ‹_›]
    decide
  · split at h
    · rw [is ‹_›]
      decide
    · cases h

/-- Any other token goes to the construct that waits for the expression; `else` may go to one inside. -/
theorem State.Has.dividerOrElse {f : Frame} {m : Move} (h : s.Has (f :: stack) e) (hw : w.Is u)
    (hr : f.resume e w.token = some m) (he : u = .kwElse → e.endsOpen = false) : s.Step w (State.perform stack none m) := by
  obtain ⟨fs, x, hx, hp⟩ := h
  have hd := isDivider_of_resume hw.1 hr
  have hsuffix : u.isSuffix = false := by cases u <;> first | rfl | cases hd
  have heq : u ≠ .eq := by rintro rfl; cases hd
  have hop : BinaryOp.ofSymbol u = none := by cases u <;> first | rfl | cases hd
  have htake : State.takeDivider w.token (fs ++ f :: stack) x = some (stack, m) :=
    hp.takeDivider hr (by simpa [Token.isSymbol, hw.1] using he)
  refine ⟨?_, ?_⟩
  · have hu : u ∈ Context.followSymbols := by cases u <;> first | decide | cases hd
    rw [hw.1, Context.admits_symbol_iff]
    generalize hall : fs ++ f :: stack = all at hx
    cases hx with
    | whole _ hc => exact Context.follows hc hu
    | inSuper => exact hu
    | name =>
      -- the construct on top is the call itself, since no other one ends with an argument
      cases hp with
      | nil =>
        cases hall
        exact mem_of_resume_argument hw.1 hr
      | cons hc =>
        cases hall
        cases hc
  · rw [hx.feed_eq hw hsuffix heq]
    simp only [State.settle, hw.1, hop, htake]
    rfl

theorem State.Has.divider {f : Frame} {m : Move} (h : s.Has (f :: stack) e) (hw : w.Is u) (hr : f.resume e w.token = some m)
    (hu : u ≠ .kwElse) : s.Step w (State.perform stack none m) :=
  h.dividerOrElse hw hr fun hu' => absurd hu' hu

/-- The end of the text closes everything. -/
theorem State.Has.finish (h : s.Has [] e) : s.finish = some e := by
  obtain ⟨fs, x, hx, hp⟩ := h
  rw [List.append_nil] at hx
  have hclose := hp.closeAll
  cases hx with
  | whole => exact hclose
  | inSuper => exact hclose
  | name =>
    cases hp with
    | cons hc => cases hc

/-- An operand of the tightest level has nothing open behind it. -/
theorem State.Has.holds (h : s.Has stack e) (hl : e.level = Level.postfixed) : s.Holds stack e := by
  obtain ⟨fs, x, hx, hp⟩ := h
  have hnil : fs = [] ∧ x = e := by
    clear hx
    induction hp with
    | nil => exact ⟨rfl, rfl⟩
    | @cons f fs x y e hc _ hp ih =>
      obtain ⟨rfl, rfl⟩ := ih hl
      have hlt := f.level_le
      rw [(Frame.level_of_close hc).2, hl] at hlt
      exact absurd hlt (by decide)
  obtain ⟨rfl, rfl⟩ := hnil
  exact hx

end After

/-! ## The first token of an operand -/

section Start

variable {s : State} {stack : List Frame} {w v : Word} {u : Symbol} {m : Move}

theorem State.Expects.startsOperand (h : s.Expects stack) : s.focus.context.startsOperand = true := by
  cases h <;> rfl

theorem mem_operandSymbols {range : Range} (h : State.operandSymbol u range = some m) : u ∈ Context.operandSymbols := by
  cases u <;> first | decide | cases h

/-- A place where an operand can start admits every token that starts one. -/
theorem Context.admits_of_operandMove {c : Context} {t : Token} (hc : c.startsOperand = true)
    (h : State.operandMove t = some m) : c.admits t.terminal = true := by
  rw [State.operandMove] at h
  split at h
  · rename_i ht
    rw [ht]
    cases c <;> cases hc <;> rfl
  · rename_i ht
    rw [ht]
    cases c <;> cases hc <;> rfl
  · rename_i u ht
    have hu := mem_operandSymbols h
    rw [ht, Context.admits_symbol_iff]
    cases c <;> cases hc
    all_goals simp [Context.symbols, hu]
  · obtain ⟨k, hk, -⟩ := Option.map_eq_some_iff.mp h
    have hstring : c.admitsString = true := by cases c <;> cases hc <;> rfl
    cases ht : t.terminal <;> rw [ht] at hk <;> cases hk
    all_goals simp [Context.admits, Terminal.isString, hstring]

/-- A token that starts an operand, other than a name and `super`, does what it does anywhere. -/
theorem State.Expects.step (h : s.Expects stack) (hm : State.operandMove w.token = some m) (hf : m.fault = none)
    (hname : w.token.terminal ≠ .name) (hsuper : w.token.terminal ≠ .symbol .kwSuper) :
    s.Step w ⟨m.push ++ stack, m.focus, none⟩ := by
  refine ⟨Context.admits_of_operandMove h.startsOperand hm, ?_⟩
  have hstart : ∀ stack, State.startOperand stack none w.token = some ⟨m.push ++ stack, m.focus, none⟩ := by
    intro stack
    rw [State.startOperand, hm, Option.map_some, State.perform, hf]
    rfl
  have hno {u : Symbol} (hu : State.operandSymbol u w.token.range = none) : w.token.isSymbol u = false := by
    by_contra hne
    have ht : w.token.terminal = .symbol u := by simpa [Token.isSymbol] using hne
    rw [State.operandMove, ht] at hm
    cases hu.symm.trans hm
  cases h with
  | operand =>
    have hno : w.token.isSymbol .kwSuper = false := by simpa [Token.isSymbol] using hsuper
    simp only [State.feed, hno, hstart]
    rfl
  | subscript => simp only [State.feed, hno (u := .colon) rfl, hno (u := .colon2) rfl, hstart]; rfl
  | sliceStop => simp only [State.feed, hno (u := .colon) rfl, hno (u := .bracketClose) rfl, hstart]; rfl
  | sliceStep => simp only [State.feed, hno (u := .bracketClose) rfl, hstart]; rfl
  | argument => simp only [State.feed, hno (u := .parenClose) rfl, hname, hstart]; rfl
  | element => simp only [State.feed, hno (u := .bracketClose) rfl, hstart]; rfl
  | nextElement => simp only [State.feed, hno (u := .bracketClose) rfl, hno (u := .kwFor) rfl, hstart]; rfl
  | functionBody => exact hstart _

theorem State.Expects.symbol (h : s.Expects stack) (hw : w.Is u) (hm : State.operandSymbol u w.range = some m)
    (hf : m.fault = none) (hsuper : u ≠ .kwSuper) : s.Step w ⟨m.push ++ stack, m.focus, none⟩ := by
  refine h.step ?_ hf ?_ ?_
  · rw [State.operandMove, hw.1]
    exact hm
  · rw [hw.1]
    simp
  · rw [hw.1]
    simpa using hsuper

/-- A name that is an operand. -/
theorem State.Expects.name (h : s.Expects stack) (hw : w.token.terminal = .name) :
    ∃ s', s.Step w s' ∧ s'.Holds stack (.var w.spelling w.range) := by
  have hmove : State.operandMove w.token = some (.done (.var w.spelling w.range)) := by
    rw [State.operandMove, hw]
    rfl
  have hadmits := Context.admits_of_operandMove h.startsOperand hmove
  have hno (u : Symbol) : w.token.isSymbol u = false := by simp [Token.isSymbol, hw]
  have hwhole {stack : List Frame} : State.Holds ⟨stack, .whole (.var w.spelling w.range) .afterOperand, none⟩ stack
      (.var w.spelling w.range) := .whole rfl rfl
  have hstart (stack : List Frame) : State.startOperand stack none w.token =
      some ⟨stack, .whole (.var w.spelling w.range) .afterOperand, none⟩ := by
    rw [State.startOperand, hmove]
    rfl
  cases h with
  | argument => exact ⟨_, ⟨hadmits, by simp [State.feed, hno, hw]; rfl⟩, .name⟩
  | functionBody => exact ⟨_, ⟨hadmits, hstart _⟩, hwhole⟩
  | _ => exact ⟨_, ⟨hadmits, by simp only [State.feed, hno, hstart]; rfl⟩, hwhole⟩

/-- After `super`, with or without `in` in front of it. -/
inductive State.AfterSuper (opening : Range) : State → List Frame → Prop
  | plain {stack : List Frame} : AfterSuper opening ⟨stack, .afterSuper opening, none⟩ stack
  | afterIn {stack : List Frame} : AfterSuper opening ⟨stack, .inSuper opening, none⟩ stack

theorem State.Expects.super (h : s.Expects stack) (hw : w.Is .kwSuper) :
    ∃ s', s.Step w s' ∧ s'.AfterSuper w.range stack := by
  have hmove : State.operandMove w.token = some (.goTo (.afterSuper w.range)) := by
    rw [State.operandMove, hw.1]
    rfl
  have hadmits := Context.admits_of_operandMove h.startsOperand hmove
  have hstart (stack : List Frame) : State.startOperand stack none w.token =
      some ⟨stack, .afterSuper w.range, none⟩ := by
    rw [State.startOperand, hmove]
    rfl
  cases h with
  | operand =>
    cases ha : State.afterIn stack with
    | true => exact ⟨_, ⟨hadmits, by simp [State.feed, Token.isSymbol, hw.1, ha]; rfl⟩, .afterIn⟩
    | false => exact ⟨_, ⟨hadmits, by simp [State.feed, ha, hstart]⟩, .plain⟩
  | functionBody => exact ⟨_, ⟨hadmits, hstart _⟩, .plain⟩
  | _ => exact ⟨_, ⟨hadmits, by simp [State.feed, Token.isSymbol, hw.1, hstart]⟩, .plain⟩

theorem State.AfterSuper.dot {opening : Range} (h : s.AfterSuper opening stack) (hw : w.Is .dot) :
    s.Step w ⟨stack, .superField opening, none⟩ := by
  cases h
  all_goals exact ⟨by rw [hw.1]; rfl, by simp [State.feed, Token.isSymbol, hw.1]; rfl⟩

theorem State.AfterSuper.bracket {opening : Range} (h : s.AfterSuper opening stack) (hw : w.Is .bracketOpen) :
    s.Step w ⟨.superIndex opening :: stack, .operand, none⟩ := by
  cases h
  all_goals exact ⟨by rw [hw.1]; rfl, by simp [State.feed, Token.isSymbol, hw.1]; rfl⟩

/-- A suffix goes on with an operand of the tightest level. -/
theorem State.Holds.suffix {e : Node} {s' : State} (h : s.Holds stack e) (hl : e.level = Level.postfixed) (hw : w.Is u)
    (hu : u.isSuffix = true) (ht : u ≠ .kwTailstrict) (hs : State.afterWhole stack none e w.token = some s') :
    s.Step w s' := by
  cases h with
  | @whole _ _ c _ hc =>
    refine ⟨?_, hs⟩
    rw [hw.1]
    cases c <;> cases hc <;> cases u <;> cases hu <;> first | rfl | exact absurd rfl ht
  | name =>
    refine ⟨?_, ?_⟩
    · rw [hw.1]
      cases u <;> cases hu <;> first | rfl | exact absurd rfl ht
    · have heq : u ≠ .eq := by rintro rfl; cases hu
      simp only [State.feed, hw.isSymbol_of_ne heq]
      exact hs
  | inSuper => cases hl

end Start

end JsonnetLocals
