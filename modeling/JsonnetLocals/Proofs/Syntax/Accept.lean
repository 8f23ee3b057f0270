/-
  JsonnetLocals.Proofs.Syntax.Accept — the machine reads every greedy derivation.

  `ReadAs p ts` says what the machine does with the words `ts` of a phrase `p`, from every state in
  which such a phrase can begin: it takes them all, and then has the value of the phrase. By induction
  over a derivation this holds of every greedy phrase (`Derives.readAs`), so the words of a greedy
  program are read as that program (`Derives.run`).
-/

import JsonnetLocals.Proofs.Syntax.Stack

namespace JsonnetLocals

/-! ## Lists -/

section Lists

variable {M : Phrase → List Word → Prop} {α : Type} {f : α → Phrase} {P : α → Prop} {S : List α → State}
  {A : List α → State → Prop} {ys : List α} {ts : List Word}

/-- Reads a list, part by part: `S xs` is the state before the part that follows `xs`, and
    `A xs` holds after the last part of `xs`. Both have the last part first. -/
theorem SeqOf.run (part : ∀ {x xs ts}, M (f x) ts → P x → ∃ s, (S xs).run ts = some s ∧ A (x :: xs) s)
    (comma : ∀ {xs s w}, A xs s → w.Is .comma → s.Step w (S xs)) (h : SeqOf M (ys.map f) ts)
    (hp : ∀ y ∈ ys, P y) : ∃ s, (S []).run ts = some s ∧ A ys.reverse s := by
  generalize hps : ys.map f = ps at h
  induction h generalizing ys with
  | one h =>
    obtain ⟨y, rfl, rfl⟩ := List.map_eq_singleton_iff.mp hps
    exact part h (hp y List.mem_cons_self)
  | more _ hw h ih =>
    obtain ⟨xs, zs, rfl, rfl, hz⟩ := List.map_eq_append_iff.mp hps
    obtain ⟨y, rfl, rfl⟩ := List.map_eq_singleton_iff.mp hz
    obtain ⟨s, hr, ha⟩ := ih (fun x hx => hp x (List.mem_append_left _ hx)) rfl
    obtain ⟨s', hr', ha'⟩ := part h (hp y (by simp))
    refine ⟨s', State.run_append hr ((comma ha hw).run hr'), ?_⟩
    rw [List.reverse_append]
    exact ha'

/-- The same for a list that may be empty and may end with a comma. -/
theorem ItemsOf.run (part : ∀ {x xs ts}, M (f x) ts → P x → ∃ s, (S xs).run ts = some s ∧ A (x :: xs) s)
    (comma : ∀ {xs s w}, A xs s → w.Is .comma → s.Step w (S xs)) (h : ItemsOf M (ys.map f) ts)
    (hp : ∀ y ∈ ys, P y) : ∃ s, (S []).run ts = some s ∧ (s = S ys.reverse ∨ A ys.reverse s) := by
  generalize hps : ys.map f = ps at h
  cases h with
  | empty =>
    obtain rfl := List.map_eq_nil_iff.mp hps
    exact ⟨_, rfl, .inl rfl⟩
  | seq h =>
    obtain ⟨s, hr, ha⟩ := SeqOf.run part comma (hps ▸ h) hp
    exact ⟨s, hr, .inr ha⟩
  | comma h hw =>
    obtain ⟨s, hr, ha⟩ := SeqOf.run part comma (hps ▸ h) hp
    exact ⟨_, State.run_append hr (comma ha hw).run_one, .inl rfl⟩

end Lists

/-! ## Phrases -/

def extended (base : Option Node) (object : Node) : Node :=
  match base with
  | none => object
  | some e => .applyBrace e object (e.range.upTo object.range)

def State.HasMember (s : State) (stack : List Frame) (object : ObjectHead) (m : Node) : Prop :=
  ∃ f e, s.Has (f :: stack) e ∧ ∀ t move, afterMember object m t = some move → f.resume e t = some move

def State.HasSpecs (s : State) (stack : List Frame) (head : CompHead) (ss : List Node) : Prop :=
  ∃ f e, s.Has (f :: stack) e ∧ ∀ t, f.resume e t = afterSpec head ss t

inductive State.ExpectsMember : State → List Frame → ObjectHead → Prop
  | first {stack : List Frame} {h : ObjectHead} : ExpectsMember ⟨stack, .member h, none⟩ stack h
  | next {stack : List Frame} {h : ObjectHead} : ExpectsMember ⟨stack, .nextMember h, none⟩ stack h

/-- The machine reads the words as the expression, wherever one of the level can stand. -/
def ExprRead (l : Nat) (e : Node) (ts : List Word) : Prop :=
  ∀ (s : State) (stack : List Frame), s.Expects stack → stackNeed stack ≤ l → ∃ s', s.run ts = some s' ∧ s'.Has stack e

/-- The machine reads the words as the phrase, wherever the phrase can stand. -/
def ReadAs : Phrase → List Word → Prop
  | .expr l e, ts => e.Greedy → ExprRead l e ts
  | .opt none, ts => ts = []
  | .opt (some e), ts => e.Greedy → ExprRead 1 e ts
  | .string _, _ => True
  | .bind b, ts => b.Greedy → ∀ stack place, ∃ s' t ps e, State.run ⟨stack, .bindName place, none⟩ ts = some s' ∧
      s'.Has (.bindValue place t ps :: stack) e ∧ b = bindOf t ps e
  | .param p, ts => p.Greedy → ∀ stack owner ps, ∃ s', State.run ⟨stack, .param owner ps, none⟩ ts = some s' ∧
      (∀ w : Word, w.Is .comma → s'.Step w ⟨stack, .param owner (p :: ps), none⟩) ∧
      ∀ w : Word, w.Is .parenClose → s'.Step w ⟨stack, .afterParams owner (p :: ps), none⟩
  | .params ps, ts => (∀ p ∈ ps, p.Greedy) → ∃ w us, ts = w :: us ∧ w.Is .parenOpen ∧
      ∀ stack owner, State.run ⟨stack, .param owner [], none⟩ us = some ⟨stack, .afterParams owner ps.reverse, none⟩
  | .arg a, ts => a.Greedy → ∀ stack e args, ∃ s' t v, State.run ⟨stack, .argument e args, none⟩ ts = some s' ∧
      s'.Has (.argument e args t :: stack) v ∧ a = argumentOf t v
  | .call e, ts => e.Greedy → ∀ (s : State) stack, s.Expects stack → stackNeed stack ≤ Level.postfixed →
      s.run ts = some ⟨stack, .whole e .afterArguments, none⟩
  | .object o, ts => o.Greedy → ∃ w us, ts = w :: us ∧ w.Is .braceOpen ∧ ∀ stack base,
      State.run ⟨stack, .member ⟨base, w.range, []⟩, none⟩ us = some ⟨stack, .whole (extended base o) .afterOperand, none⟩
  | .member m, ts => m.Greedy → ∀ (s : State) stack object, s.ExpectsMember stack object →
      ∃ s', s.run ts = some s' ∧ s'.HasMember stack object m
  | .fieldName opening k n, ts => n.Greedy → ∀ (s : State) stack object, s.ExpectsMember stack object →
      ∃ c : Context, (c = .afterFieldName ∨ c = .afterString) ∧
        s.run ts = some ⟨stack, .afterFieldName ⟨object, opening, k, n⟩ c, none⟩
  | .spec n, ts => n.Greedy → ∀ (s : State) stack head ss,
      (∀ w : Word, w.Is .kwFor → s.Step w ⟨stack, .forName head ss w.range, none⟩) →
      ((∃ c r, n = .ifSpec c r) → ∀ w : Word, w.Is .kwIf → s.Step w ⟨.ifSpec head ss w.range :: stack, .operand, none⟩) →
      ∃ s', s.run ts = some s' ∧ s'.HasSpecs stack head (n :: ss)
  | .specs ss, ts => (∀ n ∈ ss, n.Greedy) → ∀ (s : State) stack head,
      (∀ w : Word, w.Is .kwFor → s.Step w ⟨stack, .forName head [] w.range, none⟩) →
      ∃ s', s.run ts = some s' ∧ s'.HasSpecs stack head ss.reverse
  | .seq _, _ | .items _, _ => True

section Parts

variable {stack : List Frame} {w : Word} {u : Symbol} {s : State} {ts : List Word}

/-- An expression is read where a construct waits for it. -/
theorem ExprRead.awaited {l : Nat} {e : Node} (h : ExprRead l e ts) (f : Frame) (stack : List Frame) (hn : f.need ≤ l) :
    ∃ s' : State, State.run ⟨f :: stack, .operand, none⟩ ts = some s' ∧ s'.Has (f :: stack) e := h _ _ .operand hn

theorem State.has_whole {e : Node} {c : Context} (hl : e.level = Level.postfixed) (hc : c.isAfterOperand = true) :
    State.Has ⟨stack, .whole e c, none⟩ stack e := (State.Holds.whole hl hc).has

/-- The binds of `local`, up to the last one. -/
theorem SeqOf.run_binds {bs : List (Bind Node)} (h : SeqOf ReadAs (bs.map .bind) ts) (hg : ∀ b ∈ bs, b.Greedy)
    (stack : List Frame) (opening : Range) :
    ∃ s : State, State.run ⟨stack, .bindName (.inExpr opening []), none⟩ ts = some s ∧
      ∀ w : Word, w.Is .semicolon → s.Step w ⟨.localBody opening bs.reverse :: stack, .operand, none⟩ := by
  let After (bs : List (Bind Node)) (s : State) : Prop :=
    ∃ bs' t ps e, bs = bindOf t ps e :: bs' ∧ s.Has (.bindValue (.inExpr opening bs') t ps :: stack) e
  obtain ⟨s, hr, bs', t, ps, e, hbs, hhas⟩ : ∃ s : State, _ ∧ After bs.reverse s := by
    refine SeqOf.run (S := fun bs => ⟨stack, .bindName (.inExpr opening bs), none⟩) ?_ ?_ h hg
    · intro b bs ts hb hg
      obtain ⟨s, t, ps, e, hr, hhas, rfl⟩ := hb hg stack (.inExpr opening bs)
      exact ⟨s, hr, bs, t, ps, e, rfl, hhas⟩
    · rintro _ s w ⟨bs, t, ps, e, rfl, hhas⟩ hw
      exact hhas.divider hw (by simp [Frame.resume, Token.isSymbol, hw.1]; rfl) (by decide)
  refine ⟨s, hr, fun w hw => ?_⟩
  rw [hbs]
  exact hhas.divider hw (by simp [Frame.resume, Token.isSymbol, hw.1]; rfl) (by decide)

/-- Parameters, up to the closing parenthesis. -/
theorem ItemsOf.run_params {ps : List (Param Node)} (h : ItemsOf ReadAs (ps.map .param) ts) (hg : ∀ p ∈ ps, p.Greedy)
    (hw : w.Is .parenClose) (stack : List Frame) (owner : ParamOwner) :
    State.run ⟨stack, .param owner [], none⟩ (ts ++ [w]) = some ⟨stack, .afterParams owner ps.reverse, none⟩ := by
  let After (ps : List (Param Node)) (s : State) : Prop :=
    (∀ w : Word, w.Is .comma → s.Step w ⟨stack, .param owner ps, none⟩) ∧
      ∀ w : Word, w.Is .parenClose → s.Step w ⟨stack, .afterParams owner ps, none⟩
  obtain ⟨s, hr, hs⟩ : ∃ s : State, _ ∧ (s = _ ∨ After ps.reverse s) := by
    refine ItemsOf.run (S := fun ps => ⟨stack, .param owner ps, none⟩) ?_ ?_ h hg
    · intro p ps ts hp hg
      exact hp hg stack owner ps
    · intro ps s w hafter hw
      exact hafter.1 w hw
  refine State.run_append hr (State.Step.run_one ?_)
  rcases hs with rfl | hafter
  · exact ⟨by rw [hw.1]; rfl, by simp [State.feed, Token.isSymbol, hw.1]; rfl⟩
  · exact hafter.2 w hw

theorem sortArguments_append (ps : List Node) (ns : List (NamedArg Node)) :
    sortArguments (ps.map .positional ++ ns.map .named) = ((ps, ns), false) := by
  induction ps with
  | nil =>
    induction ns with
    | nil => rfl
    | cons n ns ih =>
      rw [List.map_nil, List.nil_append] at ih
      rw [List.map_nil, List.nil_append, List.map_cons, sortArguments, ih]
      rfl
  | cons p ps ih =>
    rw [List.map_cons, List.cons_append, sortArguments, ih]

/-- Arguments, up to the closing parenthesis. -/
theorem ItemsOf.run_args {ps : List Node} {ns : List (NamedArg Node)}
    (h : ItemsOf ReadAs ((ps.map Argument.positional ++ ns.map Argument.named).map .arg) ts)
    (hp : ∀ e ∈ ps, e.Greedy) (hn : ∀ a ∈ ns, a.value.Greedy) (hw : w.Is .parenClose) (stack : List Frame) (e : Node) :
    State.run ⟨stack, .argument e [], none⟩ (ts ++ [w]) =
      some ⟨stack, .whole (.apply e ps ns false (e.range.upTo w.range)) .afterArguments, none⟩ := by
  let After (args : List Argument) (s : State) : Prop :=
    ∃ args' t v, args = argumentOf t v :: args' ∧ s.Has (.argument e args' t :: stack) v
  have hg : ∀ a ∈ ps.map Argument.positional ++ ns.map Argument.named, a.Greedy := by
    intro a ha
    rcases List.mem_append.mp ha with ha | ha
    · obtain ⟨e, he, rfl⟩ := List.mem_map.mp ha
      exact hp e he
    · obtain ⟨n, hmem, rfl⟩ := List.mem_map.mp ha
      exact hn n hmem
  obtain ⟨s, hr, hs⟩ : ∃ s : State, _ ∧ (s = _ ∨ After (ps.map Argument.positional ++ ns.map Argument.named).reverse s) := by
    refine ItemsOf.run (S := fun args => ⟨stack, .argument e args, none⟩) ?_ ?_ h hg
    · intro a args ts ha hg
      obtain ⟨s, t, v, hr, hhas, rfl⟩ := ha hg stack e args
      exact ⟨s, hr, args, t, v, rfl, hhas⟩
    · rintro _ s w ⟨args, t, v, rfl, hhas⟩ hw
      exact hhas.divider hw (by simp [Frame.resume, Token.isSymbol, hw.1]; rfl) (by decide)
  have hfinish : State.perform stack none
      (finishCall e (ps.map Argument.positional ++ ns.map Argument.named).reverse w.range) =
      ⟨stack, .whole (.apply e ps ns false (e.range.upTo w.range)) .afterArguments, none⟩ := by
    rw [finishCall, List.reverse_reverse, sortArguments_append]
    rfl
  refine State.run_append hr (State.Step.run_one ?_)
  rw [← hfinish]
  rcases hs with rfl | ⟨args, t, v, hargs, hhas⟩
  · exact ⟨by rw [hw.1]; rfl, by simp [State.feed, Token.isSymbol, hw.1]; rfl⟩
  · rw [hargs]
    exact hhas.divider hw (by simp [Frame.resume, Token.isSymbol, hw.1]; rfl) (by decide)

def elementFocus (opening : Range) : List Node → Focus
  | [] => .element ⟨opening, []⟩
  | e :: es => .nextElement ⟨opening, e :: es⟩

/-- Elements, up to the closing bracket or the first spec. -/
theorem ItemsOf.run_elements {es : List Node} (h : ItemsOf ReadAs (es.map (.expr 1)) ts) (hg : ∀ e ∈ es, e.Greedy)
    (stack : List Frame) (opening : Range) : ∃ s : State,
      State.run ⟨stack, .element ⟨opening, []⟩, none⟩ ts = some s ∧
      (∀ w : Word, w.Is .bracketClose → s.Step w ⟨stack, .whole (.array es (opening.upTo w.range)) .afterOperand, none⟩) ∧
      (es ≠ [] → ∀ w : Word, w.Is .kwFor →
        s.Step w ⟨stack, .forName (.array ⟨opening, es.reverse⟩) [] w.range, none⟩) := by
  let After (es : List Node) (s : State) : Prop := ∃ e es', es = e :: es' ∧ s.Has (.element ⟨opening, es'⟩ :: stack) e
  obtain ⟨s, hr, hs⟩ : ∃ s : State, _ ∧ (s = _ ∨ After es.reverse s) := by
    refine ItemsOf.run (S := fun es => ⟨stack, elementFocus opening es, none⟩) ?_ ?_ h hg
    · intro e es ts he hg
      have hexpects : State.Expects ⟨stack, elementFocus opening es, none⟩ (.element ⟨opening, es⟩ :: stack) := by
        cases es with
        | nil => exact .element
        | cons => exact .nextElement
      obtain ⟨s, hr, hhas⟩ := he hg _ _ hexpects (Nat.le_refl 1)
      exact ⟨s, hr, e, es, rfl, hhas⟩
    · rintro _ s w ⟨e, es, rfl, hhas⟩ hw
      exact hhas.divider hw (by simp [Frame.resume, Token.isSymbol, hw.1]; rfl) (by decide)
  have hfinish (w : Word) : State.perform stack none (finishArray ⟨opening, es.reverse⟩ w.range) =
      ⟨stack, .whole (.array es (opening.upTo w.range)) .afterOperand, none⟩ := by
    rw [finishArray, List.reverse_reverse]
    rfl
  refine ⟨s, hr, fun w hw => ?_, fun hne w hw => ?_⟩
  · rw [← hfinish]
    rcases hs with rfl | ⟨e, es', hes, hhas⟩
    · cases es.reverse <;> exact ⟨by rw [hw.1]; rfl, by simp [State.feed, elementFocus, Token.isSymbol, hw.1]; rfl⟩
    · rw [hes]
      exact hhas.divider hw (by simp [Frame.resume, Token.isSymbol, hw.1]; rfl) (by decide)
  · rcases hs with rfl | ⟨e, es', hes, hhas⟩
    · obtain ⟨e, es', hes⟩ := List.exists_cons_of_ne_nil (List.reverse_ne_nil_iff.mpr hne)
      rw [hes]
      exact ⟨by rw [hw.1]; rfl, by simp [State.feed, elementFocus, Token.isSymbol, hw.1]; rfl⟩
    · rw [hes]
      exact hhas.divider hw (by simp [Frame.resume, Token.isSymbol, hw.1]; rfl) (by decide)

theorem State.ExpectsMember.step {object : ObjectHead} {m : Move} (h : s.ExpectsMember stack object)
    (hm : State.memberMove object w.token = some m) (hf : m.fault = none) : s.Step w ⟨m.push ++ stack, m.focus, none⟩ := by
  have hfor : w.token.isSymbol .kwFor = false := by
    by_contra hne
    have ht : w.token.terminal = .symbol .kwFor := by simpa [Token.isSymbol] using hne
    rw [State.memberMove, ht] at hm
    cases hm
  have hadmits {c : Context} (hc : c = .member ∨ c = .nextMember) : c.admits w.token.terminal = true := by
    rw [State.memberMove] at hm
    cases ht : w.token.terminal <;> rw [ht] at hm
    case symbol u =>
      rw [Context.admits_symbol_iff]
      rcases hc with rfl | rfl <;> cases u <;> first | decide | cases hm
    all_goals rcases hc with rfl | rfl <;> first | rfl | cases hm
  have hperform : State.perform stack none m = ⟨m.push ++ stack, m.focus, none⟩ := by rw [State.perform, hf]; rfl
  cases h with
  | first => exact ⟨hadmits (.inl rfl), by simp only [State.feed, hm, Option.map_some, hperform]⟩
  | next => exact ⟨hadmits (.inr rfl), by simp only [State.feed, hfor, hm, Option.map_some, hperform]; rfl⟩

def memberFocus (base : Option Node) (opening : Range) : List Node → Focus
  | [] => .member ⟨base, opening, []⟩
  | m :: ms => .nextMember ⟨base, opening, m :: ms⟩

/-- Members, up to the closing brace or the first spec. -/
theorem ItemsOf.run_members {ms : List Node} (h : ItemsOf ReadAs (ms.map .member) ts) (hg : ∀ m ∈ ms, m.Greedy)
    (stack : List Frame) (base : Option Node) (opening : Range) : ∃ s : State,
      State.run ⟨stack, .member ⟨base, opening, []⟩, none⟩ ts = some s ∧
      (∀ w : Word, w.Is .braceClose →
        s.Step w ⟨stack, .whole (extended base (.object ms (opening.upTo w.range))) .afterOperand, none⟩) ∧
      (ms ≠ [] → ∀ w : Word, w.Is .kwFor →
        s.Step w ⟨stack, .forName (.object ⟨base, opening, ms.reverse⟩) [] w.range, none⟩) := by
  let After (ms : List Node) (s : State) : Prop := ∃ m ms', ms = m :: ms' ∧ s.HasMember stack ⟨base, opening, ms'⟩ m
  obtain ⟨s, hr, hs⟩ : ∃ s : State, _ ∧ (s = _ ∨ After ms.reverse s) := by
    refine ItemsOf.run (S := fun ms => ⟨stack, memberFocus base opening ms, none⟩) ?_ ?_ h hg
    · intro m ms ts hm hg
      have hexpects : State.ExpectsMember ⟨stack, memberFocus base opening ms, none⟩ stack ⟨base, opening, ms⟩ := by
        cases ms with
        | nil => exact .first
        | cons => exact .next
      obtain ⟨s, hr, hhas⟩ := hm hg _ _ _ hexpects
      exact ⟨s, hr, m, ms, rfl, hhas⟩
    · rintro _ s w ⟨m, ms, rfl, f, e, hhas, hresume⟩ hw
      exact hhas.divider hw (hresume _ _ (by simp [afterMember, hw.1]; rfl)) (by decide)
  have hfinish (w : Word) : State.perform stack none (finishObject ⟨base, opening, ms.reverse⟩ w.range) =
      ⟨stack, .whole (extended base (.object ms (opening.upTo w.range))) .afterOperand, none⟩ := by
    rw [finishObject, List.reverse_reverse]
    cases base <;> rfl
  refine ⟨s, hr, fun w hw => ?_, fun hne w hw => ?_⟩
  · rw [← hfinish]
    rcases hs with rfl | ⟨m, ms', hms, f, e, hhas, hresume⟩
    · cases ms.reverse <;>
        exact ⟨by rw [hw.1]; rfl, by simp [State.feed, memberFocus, State.memberMove, Token.isSymbol, hw.1]; rfl⟩
    · rw [hms]
      exact hhas.divider hw (hresume _ _ (by simp [afterMember, hw.1]; rfl)) (by decide)
  · rcases hs with rfl | ⟨m, ms', hms, f, e, hhas, hresume⟩
    · obtain ⟨m, ms', hms⟩ := List.exists_cons_of_ne_nil (List.reverse_ne_nil_iff.mpr hne)
      rw [hms]
      exact ⟨by rw [hw.1]; rfl, by simp [State.feed, memberFocus, Token.isSymbol, hw.1]; rfl⟩
    · rw [hms]
      exact hhas.divider hw (hresume _ _ (by simp [afterMember, hw.1]; rfl)) (by decide)

theorem step_bindName (hw : w.IsName (some .bind)) (stack : List Frame) (place : BindPlace) :
    State.Step ⟨stack, .bindName place, none⟩ w ⟨stack, .afterBindName place w.token, none⟩ :=
  ⟨by rw [hw.1]; rfl, by simp [State.feed, hw.1]; rfl⟩

/-- The visibility after a field's name. -/
theorem step_visibility {field : FieldHead} {c : Context} {vis : Visibility} (hc : c = .afterFieldName ∨ c = .afterString)
    (hvis : Visibility.ofSymbol u = some vis) (hw : w.Is u) :
    State.Step ⟨stack, .afterFieldName field c, none⟩ w ⟨.fieldBody field none false vis :: stack, .operand, none⟩ := by
  have hopen : u ≠ .parenOpen := by rintro rfl; cases hvis
  have hplus : u ≠ .plus := by rintro rfl; cases hvis
  refine ⟨?_, ?_⟩
  · rw [hw.1]
    rcases hc with rfl | rfl <;> cases u <;> cases hvis <;> rfl
  · simp only [State.feed, hw.isSymbol_of_ne hopen, hw.isSymbol_of_ne hplus, State.visibilityOf, hw.1, hvis]
    rfl

/-! ### Slices -/

variable {e : Node} {a b c : Option Node}

theorem Node.Greedy.slice {r : Range} (h : (Node.slice e a b c r).Greedy) :
    e.Greedy ∧ (∀ x ∈ a, x.Greedy) ∧ (∀ x ∈ b, x.Greedy) ∧ ∀ x ∈ c, x.Greedy := by
  have hparts := ((Node.greedy_iff _).mp h).2
  simpa [Node.children, or_imp, forall_and] using hparts

/-- The first part of a slice. -/
theorem run_sliceStart (h : ReadAs (.opt a) ts) (hg : ∀ x ∈ a, x.Greedy) (stack : List Frame) (e : Node) :
    ∃ s : State, State.run ⟨stack, .subscript e, none⟩ ts = some s ∧
      (∀ w : Word, w.Is .colon → s.Step w ⟨stack, .sliceStop e a, none⟩) ∧
      ∀ w : Word, w.Is .colon2 → s.Step w ⟨stack, .sliceStep e a none, none⟩ := by
  cases a with
  | none =>
    obtain rfl : ts = [] := h
    refine ⟨_, rfl, fun w hw => ?_, fun w hw => ?_⟩
    all_goals exact ⟨by rw [hw.1]; rfl, by simp [State.feed, Token.isSymbol, hw.1]; rfl⟩
  | some x =>
    obtain ⟨s, hr, hhas⟩ := h (hg x rfl) _ _ .subscript (Nat.le_refl 1)
    refine ⟨s, hr, fun w hw => ?_, fun w hw => ?_⟩
    all_goals exact hhas.divider hw (by simp [Frame.resume, Token.isSymbol, hw.1]; rfl) (by decide)

/-- The second part of a slice. -/
theorem run_sliceStop (h : ReadAs (.opt b) ts) (hg : ∀ x ∈ b, x.Greedy) (stack : List Frame) (e : Node)
    (a : Option Node) : ∃ s : State, State.run ⟨stack, .sliceStop e a, none⟩ ts = some s ∧
      (∀ w : Word, w.Is .bracketClose →
        s.Step w ⟨stack, .whole (.slice e a b none (e.range.upTo w.range)) .afterOperand, none⟩) ∧
      ∀ w : Word, w.Is .colon → s.Step w ⟨stack, .sliceStep e a b, none⟩ := by
  cases b with
  | none =>
    obtain rfl : ts = [] := h
    refine ⟨_, rfl, fun w hw => ?_, fun w hw => ?_⟩
    all_goals exact ⟨by rw [hw.1]; rfl, by simp [State.feed, Token.isSymbol, hw.1]; rfl⟩
  | some x =>
    obtain ⟨s, hr, hhas⟩ := h (hg x rfl) _ _ .sliceStop (Nat.le_refl 1)
    refine ⟨s, hr, fun w hw => ?_, fun w hw => ?_⟩
    all_goals exact hhas.divider hw (by simp [Frame.resume, Token.isSymbol, hw.1]; rfl) (by decide)

/-- The third part of a slice. -/
theorem run_sliceStep (h : ReadAs (.opt c) ts) (hg : ∀ x ∈ c, x.Greedy) (stack : List Frame) (e : Node)
    (a b : Option Node) : ∃ s : State, State.run ⟨stack, .sliceStep e a b, none⟩ ts = some s ∧
      ∀ w : Word, w.Is .bracketClose →
        s.Step w ⟨stack, .whole (.slice e a b c (e.range.upTo w.range)) .afterOperand, none⟩ := by
  cases c with
  | none =>
    obtain rfl : ts = [] := h
    refine ⟨_, rfl, fun w hw => ?_⟩
    exact ⟨by rw [hw.1]; rfl, by simp [State.feed, Token.isSymbol, hw.1]; rfl⟩
  | some x =>
    obtain ⟨s, hr, hhas⟩ := h (hg x rfl) _ _ .sliceStep (Nat.le_refl 1)
    refine ⟨s, hr, fun w hw => ?_⟩
    exact hhas.divider hw (by simp [Frame.resume, Token.isSymbol, hw.1]; rfl) (by decide)

theorem stringMove_ok {k : StringKind} {value : List Char} (hv : Literal.stringValue k w.text w.range.start = .ok value)
    (finish : Node → Focus) : State.stringMove k w.token finish = .goTo (finish (.string (.ofChars value) k w.range)) := by
  have hv : Literal.stringValue k w.token.text w.token.range.start = .ok value := hv
  rw [State.stringMove, hv]
  rfl

/-- A string is read where an operand is expected. -/
theorem State.Expects.string (h : s.Expects stack) (hd : Derives (.string e) ts) :
    ∃ s', s.run ts = some s' ∧ s'.Has stack e := by
  cases hd with
  | @stringLiteral k value w hk hr hv =>
    have hmove : State.operandMove w.token = some (.goTo (.whole (.string (.ofChars value) k w.range) .afterString)) := by
      rw [← stringMove_ok hv fun e => .whole e .afterString]
      cases ht : w.token.terminal <;> rw [ht] at hk <;> cases hk <;> simp only [State.operandMove, ht] <;> rfl
    have hname : w.token.terminal ≠ .name := by
      intro ht
      rw [ht] at hk
      cases hk
    have hsuper : w.token.terminal ≠ .symbol .kwSuper := by
      intro ht
      rw [ht] at hk
      cases hk
    exact ⟨_, (h.step hmove rfl hname hsuper).run_one, State.has_whole rfl rfl⟩

theorem Derives.level_eq (h : Derives (.expr Level.postfixed e) ts) : e.level = Level.postfixed := by
  refine Nat.le_antisymm ?_ (h.spine rfl).level_le
  cases e
  case binary _ op _ _ => exact Nat.le_trans (Nat.le_of_lt op.level_lt) (by decide)
  all_goals simp [Node.level, Level.postfixed, Level.unary, Level.inSuper]

/-- A suffix goes on with an operand that was just read. -/
theorem State.Has.suffix {s' : State} (h : s.Has stack e) (he : Derives (.expr Level.postfixed e) ts) (hw : w.Is u)
    (hu : u.isSuffix = true) (ht : u ≠ .kwTailstrict) (hs : State.afterWhole stack none e w.token = some s') : s.Step w s' :=
  (h.holds he.level_eq).suffix he.level_eq hw hu ht hs

end Parts

/-! ## Productions -/

namespace ReadAs

variable {c e l m r y : Node} {k : Nat} {u : Symbol} {w v x : Word} {ts us vs xs : List Word}

/-- A part of a construct is read where the construct waits for it. -/
theorem awaited (h : ReadAs (.expr k c) ts) (hg : e.Greedy) (hc : c ∈ e.children) (f : Frame) (stack : List Frame)
    (hn : f.need ≤ k) : ∃ s' : State, State.run ⟨f :: stack, .operand, none⟩ ts = some s' ∧ s'.Has (f :: stack) c :=
  ExprRead.awaited (h (hg.child hc)) f stack hn

/-! ### Operators and the forms that start with a keyword -/

theorem binary {op : BinaryOp} (ho : BinaryOp.ofSymbol u = some op) (hl : Derives (.expr op.level l) ts) (hw : w.Is u)
    (hr : Derives (.expr (op.level + 1) r) us) (ihl : ReadAs (.expr op.level l) ts) (ihr : ReadAs (.expr (op.level + 1) r) us) :
    ReadAs (.expr op.level (.binary l op r (l.range.upTo r.range))) (ts ++ w :: us) := by
  intro hg s stack hx hn
  have hhere : l.takes op.level = false := by simpa [Node.greedyHere] using ((Node.greedy_iff _).mp hg).1
  obtain ⟨s₁, h₁, hl₁⟩ := ihl (hg.child (by simp [Node.children])) s stack hx hn
  have hop := hl₁.operator ho hw hhere (hl.spine rfl).level_le hn
  obtain ⟨s₂, h₂, hr₂⟩ := awaited ihr hg (by simp [Node.children]) (.binary l op) stack (Nat.le_refl _)
  exact ⟨s₂, State.run_append h₁ (hop.run h₂), hr₂.close rfl (hr.spine rfl).level_le⟩

theorem inSuper (hl : Derives (.expr Level.inSuper l) ts) (hw : w.Is .kwIn) (hv : v.Is .kwSuper)
    (ihl : ReadAs (.expr Level.inSuper l) ts) :
    ReadAs (.expr Level.inSuper (.inSuper l (l.range.upTo v.range))) (ts ++ [w, v]) := by
  intro hg s stack hx hn
  have hin : BinaryOp.ofSymbol .kwIn = some .isIn := rfl
  have hhere : l.takes Level.inSuper = false := by simpa [Node.greedyHere] using ((Node.greedy_iff _).mp hg).1
  obtain ⟨s₁, h₁, hl₁⟩ := ihl (hg.child (by simp [Node.children])) s stack hx hn
  have hop := hl₁.operator hin hw hhere (hl.spine rfl).level_le hn
  have hsuper : State.Step ⟨.binary l .isIn :: stack, .operand, none⟩ v
      ⟨.binary l .isIn :: stack, .inSuper v.range, none⟩ :=
    ⟨by rw [hv.1]; rfl, by simp [State.feed, Token.isSymbol, hv.1, State.afterIn]; rfl⟩
  exact ⟨_, State.run_append h₁ (hop.run hsuper.run_one), State.Holds.inSuper.has⟩

theorem unary {op : UnaryOp} (ho : UnaryOp.ofSymbol u = some op) (hw : w.Is u) (he : Derives (.expr Level.unary e) ts)
    (ih : ReadAs (.expr Level.unary e) ts) :
    ReadAs (.expr Level.unary (.unary op e (w.range.upTo e.range))) (w :: ts) := by
  intro hg s stack hx hn
  have hstart := hx.symbol hw (m := .await (.unary op w.range)) (by simp [State.operandSymbol, ho]) rfl
    (by rintro rfl; cases ho)
  obtain ⟨s₁, h₁, he₁⟩ := awaited ih hg (by simp [Node.children]) (.unary op w.range) stack (Nat.le_refl _)
  exact ⟨s₁, hstart.run h₁, he₁.close rfl (he.spine rfl).level_le⟩

theorem localIn {bs : List (Bind Node)} (hw : w.Is .kwLocal) (hv : v.Is .semicolon) (he : Derives (.expr 1 e) us)
    (ihb : SeqOf ReadAs (bs.map .bind) ts) (ihe : ReadAs (.expr 1 e) us) :
    ReadAs (.expr Level.unary (.localIn bs e (w.range.upTo e.range))) (w :: ts ++ v :: us) := by
  intro hg s stack hx hn
  rw [Node.greedy_localIn] at hg
  obtain ⟨s₁, h₁, hsemi⟩ := SeqOf.run_binds ihb hg.1 stack w.range
  obtain ⟨s₂, h₂, he₂⟩ := ExprRead.awaited (ihe hg.2) (.localBody w.range bs.reverse) stack (Nat.le_refl 1)
  refine ⟨s₂, (hx.symbol hw rfl rfl (by decide)).run (State.run_append h₁ ((hsemi v hv).run h₂)), ?_⟩
  exact he₂.close (by simp [Frame.close, Node.level]) (he.spine rfl).level_le

theorem ifThen (hw : w.Is .kwIf) (hv : v.Is .kwThen) (he : Derives (.expr 1 e) us) (ihc : ReadAs (.expr 1 c) ts)
    (ihe : ReadAs (.expr 1 e) us) :
    ReadAs (.expr Level.unary (.conditional c e none (w.range.upTo e.range))) (w :: ts ++ v :: us) := by
  intro hg s stack hx hn
  obtain ⟨s₁, h₁, hc₁⟩ := awaited ihc hg (by simp [Node.children]) (.ifCond w.range) stack (Nat.le_refl 1)
  have hthen := hc₁.divider hv (by simp [Frame.resume, Token.isSymbol, hv.1]; rfl) (by decide)
  obtain ⟨s₂, h₂, he₂⟩ := awaited ihe hg (by simp [Node.children]) (.thenBranch w.range c) stack (Nat.le_refl 1)
  refine ⟨s₂, (hx.symbol hw rfl rfl (by decide)).run (State.run_append h₁ (hthen.run h₂)), ?_⟩
  exact he₂.close rfl (he.spine rfl).level_le

theorem ifThenElse (hw : w.Is .kwIf) (hv : v.Is .kwThen) (hx' : x.Is .kwElse) (he : Derives (.expr 1 e) vs)
    (ihc : ReadAs (.expr 1 c) ts) (ihy : ReadAs (.expr 1 y) us) (ihe : ReadAs (.expr 1 e) vs) :
    ReadAs (.expr Level.unary (.conditional c y (some e) (w.range.upTo e.range))) (w :: ts ++ v :: us ++ x :: vs) := by
  intro hg s stack hx hn
  have hhere : y.endsOpen = false := by simpa [Node.greedyHere] using ((Node.greedy_iff _).mp hg).1
  obtain ⟨s₁, h₁, hc₁⟩ := awaited ihc hg (by simp [Node.children]) (.ifCond w.range) stack (Nat.le_refl 1)
  have hthen := hc₁.divider hv (by simp [Frame.resume, Token.isSymbol, hv.1]; rfl) (by decide)
  obtain ⟨s₂, h₂, hy₂⟩ := awaited ihy hg (by simp [Node.children]) (.thenBranch w.range c) stack (Nat.le_refl 1)
  have helse := hy₂.dividerOrElse hx' (by simp [Frame.resume, Token.isSymbol, hx'.1]; rfl) fun _ => hhere
  obtain ⟨s₃, h₃, he₃⟩ := awaited ihe hg (by simp [Node.children]) (.elseBranch w.range c y) stack (Nat.le_refl 1)
  refine ⟨s₃, ?_, he₃.close rfl (he.spine rfl).level_le⟩
  exact State.run_append ((hx.symbol hw rfl rfl (by decide)).run (State.run_append h₁ (hthen.run h₂))) (helse.run h₃)

theorem function {ps : List (Param Node)} (hw : w.Is .kwFunction) (he : Derives (.expr 1 e) us) (ihp : ReadAs (.params ps) ts)
    (ihe : ReadAs (.expr 1 e) us) :
    ReadAs (.expr Level.unary (.function ps e (w.range.upTo e.range))) (w :: ts ++ us) := by
  intro hg s stack hx hn
  rw [Node.greedy_function] at hg
  obtain ⟨v, ts, rfl, hv, hparams⟩ := ihp hg.1
  have hopen : State.Step ⟨stack, .paramsOpen w.range, none⟩ v ⟨stack, .param (.function w.range) [], none⟩ :=
    ⟨by rw [hv.1]; rfl, by simp [State.feed, Token.isSymbol, hv.1]; rfl⟩
  have hbody : State.Expects ⟨stack, .afterParams (.function w.range) ps.reverse, none⟩
      (.functionBody w.range ps.reverse :: stack) := .functionBody
  obtain ⟨s₁, h₁, he₁⟩ := ihe hg.2 _ _ hbody (Nat.le_refl 1)
  refine ⟨s₁, (hx.symbol hw rfl rfl (by decide)).run (State.run_append (hopen.run (hparams stack _)) h₁), ?_⟩
  exact he₁.close (by simp [Frame.close, Node.level]) (he.spine rfl).level_le

theorem assertion (hw : w.Is .kwAssert) (hv : v.Is .semicolon) (he : Derives (.expr 1 e) us) (ihc : ReadAs (.expr 1 c) ts)
    (ihe : ReadAs (.expr 1 e) us) :
    ReadAs (.expr Level.unary (.assertion c none e (w.range.upTo e.range))) (w :: ts ++ v :: us) := by
  intro hg s stack hx hn
  obtain ⟨s₁, h₁, hc₁⟩ := awaited ihc hg (by simp [Node.children]) (.assertCond w.range) stack (Nat.le_refl 1)
  have hsemi := hc₁.divider hv (by simp [Frame.resume, Token.isSymbol, hv.1]; rfl) (by decide)
  obtain ⟨s₂, h₂, he₂⟩ := awaited ihe hg (by simp [Node.children]) (.assertRest w.range c none) stack (Nat.le_refl 1)
  refine ⟨s₂, (hx.symbol hw rfl rfl (by decide)).run (State.run_append h₁ (hsemi.run h₂)), ?_⟩
  exact he₂.close rfl (he.spine rfl).level_le

theorem assertionMessage (hw : w.Is .kwAssert) (hv : v.Is .colon) (hx' : x.Is .semicolon) (he : Derives (.expr 1 e) vs)
    (ihc : ReadAs (.expr 1 c) ts) (ihm : ReadAs (.expr 1 m) us) (ihe : ReadAs (.expr 1 e) vs) :
    ReadAs (.expr Level.unary (.assertion c (some m) e (w.range.upTo e.range))) (w :: ts ++ v :: us ++ x :: vs) := by
  intro hg s stack hx hn
  obtain ⟨s₁, h₁, hc₁⟩ := awaited ihc hg (by simp [Node.children]) (.assertCond w.range) stack (Nat.le_refl 1)
  have hcolon := hc₁.divider hv (by simp [Frame.resume, Token.isSymbol, hv.1]; rfl) (by decide)
  obtain ⟨s₂, h₂, hm₂⟩ := awaited ihm hg (by simp [Node.children]) (.assertMessage w.range c) stack (Nat.le_refl 1)
  have hsemi := hm₂.divider hx' (by simp [Frame.resume, Token.isSymbol, hx'.1]; rfl) (by decide)
  obtain ⟨s₃, h₃, he₃⟩ := awaited ihe hg (by simp [Node.children]) (.assertRest w.range c (some m)) stack (Nat.le_refl 1)
  refine ⟨s₃, ?_, he₃.close rfl (he.spine rfl).level_le⟩
  exact State.run_append ((hx.symbol hw rfl rfl (by decide)).run (State.run_append h₁ (hcolon.run h₂))) (hsemi.run h₃)

theorem error (hw : w.Is .kwError) (he : Derives (.expr 1 e) ts) (ih : ReadAs (.expr 1 e) ts) :
    ReadAs (.expr Level.unary (.error e (w.range.upTo e.range))) (w :: ts) := by
  intro hg s stack hx hn
  obtain ⟨s₁, h₁, he₁⟩ := awaited ih hg (by simp [Node.children]) (.errorBody w.range) stack (Nat.le_refl 1)
  exact ⟨s₁, (hx.symbol hw rfl rfl (by decide)).run h₁, he₁.close rfl (he.spine rfl).level_le⟩

/-! ### Binds and parameters -/

theorem valueBind (hw : w.IsName (some .bind)) (hv : v.Is .eq) (ih : ReadAs (.expr 1 e) ts) :
    ReadAs (.bind ⟨w.spelling, e, none, w.range.upTo e.range⟩) (w :: v :: ts) := by
  intro hg stack place
  have heq : State.Step ⟨stack, .afterBindName place w.token, none⟩ v
      ⟨.bindValue place w.token none :: stack, .operand, none⟩ :=
    ⟨by rw [hv.1]; rfl, by simp [State.feed, Token.isSymbol, hv.1]; rfl⟩
  obtain ⟨s₁, h₁, he₁⟩ := ExprRead.awaited (ih hg) (.bindValue place w.token none) stack (Nat.le_refl 1)
  exact ⟨s₁, w.token, none, e, (step_bindName hw stack place).run (heq.run h₁), he₁, rfl⟩

theorem functionBind {ps : List (Param Node)} (hw : w.IsName (some .bind)) (hv : v.Is .eq) (ihp : ReadAs (.params ps) ts)
    (ihe : ReadAs (.expr 1 e) us) :
    ReadAs (.bind ⟨w.spelling, e, some (.function ps e (w.range.upTo e.range)), w.range.upTo e.range⟩)
      (w :: ts ++ v :: us) := by
  intro hg stack place
  obtain ⟨hps, he⟩ := (Node.greedy_function _ _ _).mp hg
  obtain ⟨x, ts, rfl, hx, hparams⟩ := ihp hps
  have hopen : State.Step ⟨stack, .afterBindName place w.token, none⟩ x
      ⟨stack, .param (.bind place w.token) [], none⟩ :=
    ⟨by rw [hx.1]; rfl, by simp [State.feed, Token.isSymbol, hx.1]; rfl⟩
  have heq : State.Step ⟨stack, .afterParams (.bind place w.token) ps.reverse, none⟩ v
      ⟨.bindValue place w.token (some ps.reverse) :: stack, .operand, none⟩ :=
    ⟨by rw [hv.1]; rfl, by simp [State.feed, State.afterParams, Token.isSymbol, hv.1]; rfl⟩
  obtain ⟨s₁, h₁, he₁⟩ := ExprRead.awaited (ihe he) (.bindValue place w.token (some ps.reverse)) stack (Nat.le_refl 1)
  refine ⟨s₁, w.token, some ps.reverse, e, ?_, he₁, ?_⟩
  · exact (step_bindName hw stack place).run (State.run_append (hopen.run (hparams stack _)) (heq.run h₁))
  · simp only [bindOf, Option.map_some, List.reverse_reverse]
    rfl

theorem param (hw : w.IsName none) : ReadAs (.param ⟨w.spelling, none, w.range⟩) [w] := by
  intro _ stack owner ps
  refine ⟨⟨stack, .afterParamName owner ps w.token, none⟩, ?_, fun v hv => ?_, fun v hv => ?_⟩
  · exact State.Step.run_one ⟨by rw [hw.1]; rfl, by simp [State.feed, Token.isSymbol, hw.1]; rfl⟩
  all_goals exact ⟨by rw [hv.1]; rfl, by simp [State.feed, Token.isSymbol, hv.1]; rfl⟩

theorem paramValue (hw : w.IsName none) (hv : v.Is .eq) (ih : ReadAs (.expr 1 e) ts) :
    ReadAs (.param ⟨w.spelling, some e, w.range⟩) (w :: v :: ts) := by
  intro hg stack owner ps
  have hname : State.Step ⟨stack, .param owner ps, none⟩ w ⟨stack, .afterParamName owner ps w.token, none⟩ :=
    ⟨by rw [hw.1]; rfl, by simp [State.feed, Token.isSymbol, hw.1]; rfl⟩
  have heq : State.Step ⟨stack, .afterParamName owner ps w.token, none⟩ v
      ⟨.paramValue owner ps w.token :: stack, .operand, none⟩ :=
    ⟨by rw [hv.1]; rfl, by simp [State.feed, Token.isSymbol, hv.1]; rfl⟩
  obtain ⟨s₁, h₁, he₁⟩ := ExprRead.awaited (ih (hg _ rfl)) (.paramValue owner ps w.token) stack (Nat.le_refl 1)
  refine ⟨s₁, hname.run (heq.run h₁), fun w hw => ?_, fun w hw => ?_⟩
  all_goals exact he₁.divider hw (by simp [Frame.resume, Token.isSymbol, hw.1]; rfl) (by decide)

/-! ### Suffixes -/

theorem fieldAccess (he : Derives (.expr Level.postfixed e) ts) (hw : w.Is .dot) (hv : v.IsName none)
    (ih : ReadAs (.expr Level.postfixed e) ts) :
    ReadAs (.expr Level.postfixed (.index e none (some v.spelling) (e.range.upTo v.range))) (ts ++ [w, v]) := by
  intro hg s stack hx hn
  obtain ⟨s₁, h₁, he₁⟩ := ih (hg.child (by simp [Node.children])) s stack hx hn
  have hdot := he₁.suffix he hw rfl (by decide) (by simp [State.afterWhole, hw.1]; rfl)
  have hname : State.Step ⟨stack, .fieldAccess e, none⟩ v
      ⟨stack, .whole (.index e none (some v.spelling) (e.range.upTo v.range)) .afterOperand, none⟩ :=
    ⟨by rw [hv.1]; rfl, by simp [State.feed, hv.1]; rfl⟩
  exact ⟨_, State.run_append h₁ (hdot.run hname.run_one), State.has_whole rfl rfl⟩

theorem index {i : Node} (he : Derives (.expr Level.postfixed e) ts) (hw : w.Is .bracketOpen) (hv : v.Is .bracketClose)
    (ihe : ReadAs (.expr Level.postfixed e) ts) (ihi : ReadAs (.expr 1 i) us) :
    ReadAs (.expr Level.postfixed (.index e (some i) none (e.range.upTo v.range))) (ts ++ w :: us ++ [v]) := by
  intro hg s stack hx hn
  obtain ⟨s₁, h₁, he₁⟩ := ihe (hg.child (by simp [Node.children])) s stack hx hn
  have hopen := he₁.suffix he hw rfl (by decide) (by simp [State.afterWhole, hw.1]; rfl)
  obtain ⟨s₂, h₂, hi₂⟩ := ihi (hg.child (by simp [Node.children])) ⟨stack, .subscript e, none⟩ _ .subscript (Nat.le_refl 1)
  have hclose := hi₂.divider hv (by simp [Frame.resume, Token.isSymbol, hv.1]; rfl) (by decide)
  exact ⟨_, State.run_append (State.run_append h₁ (hopen.run h₂)) hclose.run_one, State.has_whole rfl rfl⟩

section Slices

variable {a b d : Option Node}

/-- An operand and the first part of a slice of it. -/
theorem sliceStart {q : Range} (he : Derives (.expr Level.postfixed e) ts) (hw : w.Is .bracketOpen)
    (ihe : ReadAs (.expr Level.postfixed e) ts) (iha : ReadAs (.opt a) us) (hg : (Node.slice e a b d q).Greedy) {s : State}
    {stack : List Frame} (hx : s.Expects stack) (hn : stackNeed stack ≤ Level.postfixed) :
    ∃ s₂ : State, s.run (ts ++ w :: us) = some s₂ ∧
      (∀ w : Word, w.Is .colon → s₂.Step w ⟨stack, .sliceStop e a, none⟩) ∧
      ∀ w : Word, w.Is .colon2 → s₂.Step w ⟨stack, .sliceStep e a none, none⟩ := by
  obtain ⟨hge, hga, -⟩ := hg.slice
  obtain ⟨s₁, h₁, he₁⟩ := ihe hge s stack hx hn
  have hopen := he₁.suffix he hw rfl (by decide) (by simp [State.afterWhole, hw.1]; rfl)
  obtain ⟨s₂, h₂, hnext⟩ := run_sliceStart iha hga stack e
  exact ⟨s₂, State.run_append h₁ (hopen.run h₂), hnext⟩

theorem slice (he : Derives (.expr Level.postfixed e) ts) (hw : w.Is .bracketOpen) (hx' : x.Is .colon) (hv : v.Is .bracketClose)
    (ihe : ReadAs (.expr Level.postfixed e) ts) (iha : ReadAs (.opt a) us) (ihb : ReadAs (.opt b) vs) :
    ReadAs (.expr Level.postfixed (.slice e a b none (e.range.upTo v.range))) (ts ++ w :: us ++ x :: vs ++ [v]) := by
  intro hg s stack hx hn
  obtain ⟨-, -, hgb, -⟩ := hg.slice
  obtain ⟨s₂, h₂, hstop, -⟩ := sliceStart he hw ihe iha hg hx hn
  obtain ⟨s₃, h₃, hclose, -⟩ := run_sliceStop ihb hgb stack e a
  have hrun := State.run_append h₂ ((hstop x hx').run h₃)
  exact ⟨_, State.run_append hrun (hclose v hv).run_one, State.has_whole rfl rfl⟩

theorem sliceStep {y : Word} (he : Derives (.expr Level.postfixed e) ts) (hw : w.Is .bracketOpen) (hx' : x.Is .colon)
    (hy : y.Is .colon) (hv : v.Is .bracketClose) (ihe : ReadAs (.expr Level.postfixed e) ts) (iha : ReadAs (.opt a) us)
    (ihb : ReadAs (.opt b) vs) (ihd : ReadAs (.opt d) xs) :
    ReadAs (.expr Level.postfixed (.slice e a b d (e.range.upTo v.range))) (ts ++ w :: us ++ x :: vs ++ y :: xs ++ [v]) := by
  intro hg s stack hx hn
  obtain ⟨-, -, hgb, hgd⟩ := hg.slice
  obtain ⟨s₂, h₂, hstop, -⟩ := sliceStart he hw ihe iha hg hx hn
  obtain ⟨s₃, h₃, -, hstep⟩ := run_sliceStop ihb hgb stack e a
  obtain ⟨s₄, h₄, hclose⟩ := run_sliceStep ihd hgd stack e a b
  have hrun := State.run_append (State.run_append h₂ ((hstop x hx').run h₃)) ((hstep y hy).run h₄)
  exact ⟨_, State.run_append hrun (hclose v hv).run_one, State.has_whole rfl rfl⟩

theorem sliceNoStop (he : Derives (.expr Level.postfixed e) ts) (hw : w.Is .bracketOpen) (hx' : x.Is .colon2)
    (hv : v.Is .bracketClose) (ihe : ReadAs (.expr Level.postfixed e) ts) (iha : ReadAs (.opt a) us)
    (ihd : ReadAs (.opt d) xs) :
    ReadAs (.expr Level.postfixed (.slice e a none d (e.range.upTo v.range))) (ts ++ w :: us ++ x :: xs ++ [v]) := by
  intro hg s stack hx hn
  obtain ⟨-, -, -, hgd⟩ := hg.slice
  obtain ⟨s₂, h₂, -, hstep⟩ := sliceStart he hw ihe iha hg hx hn
  obtain ⟨s₃, h₃, hclose⟩ := run_sliceStep ihd hgd stack e a none
  have hrun := State.run_append h₂ ((hstep x hx').run h₃)
  exact ⟨_, State.run_append hrun (hclose v hv).run_one, State.has_whole rfl rfl⟩

end Slices

theorem call {ps : List Node} {ns : List (NamedArg Node)} (he : Derives (.expr Level.postfixed e) ts) (hw : w.Is .parenOpen)
    (hv : v.Is .parenClose) (ihe : ReadAs (.expr Level.postfixed e) ts)
    (iha : ItemsOf ReadAs ((ps.map Argument.positional ++ ns.map Argument.named).map .arg) us) :
    ReadAs (.call (.apply e ps ns false (e.range.upTo v.range))) (ts ++ w :: us ++ [v]) := by
  intro hg s stack hx hn
  have hps : ∀ x ∈ ps, x.Greedy := fun x hx => hg.child (by simp [Node.children, hx])
  have hns : ∀ n ∈ ns, n.value.Greedy := fun n hn => hg.child (List.mem_append_right _ (List.mem_map_of_mem hn))
  obtain ⟨s₁, h₁, he₁⟩ := ihe (hg.child (by simp [Node.children])) s stack hx hn
  have hopen := he₁.suffix he hw rfl (by decide) (by simp [State.afterWhole, hw.1]; rfl)
  have hargs := ItemsOf.run_args iha hps hns hv stack e
  rw [List.append_assoc]
  exact State.run_append h₁ (hopen.run hargs)

theorem tailstrict {ps : List Node} {ns : List (NamedArg Node)} {q : Range} (hw : w.Is .kwTailstrict)
    (ih : ReadAs (.call (.apply e ps ns false q)) ts) :
    ReadAs (.expr Level.postfixed (.apply e ps ns true (q.upTo w.range))) (ts ++ [w]) := by
  intro hg s stack hx hn
  have hcall := ih (.intro rfl fun c hc => hg.child hc) s stack hx hn
  have htail : State.Step ⟨stack, .whole (.apply e ps ns false q) .afterArguments, none⟩ w
      ⟨stack, .whole (.apply e ps ns true (q.upTo w.range)) .afterOperand, none⟩ :=
    ⟨by rw [hw.1]; rfl, by simp [State.feed, State.afterWhole, hw.1, State.makeTailstrict]; rfl⟩
  exact ⟨_, State.run_append hcall htail.run_one, State.has_whole rfl rfl⟩

theorem positional (ih : ReadAs (.expr 1 e) ts) : ReadAs (.arg (.positional e)) ts := by
  intro hg stack target args
  obtain ⟨s₁, h₁, he₁⟩ := ih hg ⟨stack, .argument target args, none⟩ _ .argument (Nat.le_refl 1)
  exact ⟨s₁, none, e, h₁, he₁, rfl⟩

theorem named (hw : w.IsName none) (hv : v.Is .eq) (ih : ReadAs (.expr 1 e) ts) :
    ReadAs (.arg (.named ⟨w.spelling, e, w.range.upTo e.range⟩)) (w :: v :: ts) := by
  intro hg stack target args
  have hname : State.Step ⟨stack, .argument target args, none⟩ w ⟨stack, .argumentName target args w.token, none⟩ :=
    ⟨by rw [hw.1]; rfl, by simp [State.feed, Token.isSymbol, hw.1]; rfl⟩
  have heq : State.Step ⟨stack, .argumentName target args w.token, none⟩ v
      ⟨.argument target args (some w.token) :: stack, .operand, none⟩ :=
    ⟨by rw [hv.1]; rfl, by simp [State.feed, Token.isSymbol, hv.1]; rfl⟩
  obtain ⟨s₁, h₁, he₁⟩ := ExprRead.awaited (ih hg) (.argument target args (some w.token)) stack (Nat.le_refl 1)
  exact ⟨s₁, some w.token, e, hname.run (heq.run h₁), he₁, rfl⟩

theorem applyBrace {o : Node} (he : Derives (.expr Level.postfixed e) ts) (ihe : ReadAs (.expr Level.postfixed e) ts)
    (iho : ReadAs (.object o) us) : ReadAs (.expr Level.postfixed (.applyBrace e o (e.range.upTo o.range))) (ts ++ us) := by
  intro hg s stack hx hn
  obtain ⟨s₁, h₁, he₁⟩ := ihe (hg.child (by simp [Node.children])) s stack hx hn
  obtain ⟨w, us, rfl, hw, hobject⟩ := iho (hg.child (by simp [Node.children]))
  have hopen := he₁.suffix he hw rfl (by decide) (by simp [State.afterWhole, hw.1]; rfl)
  exact ⟨_, State.run_append h₁ (hopen.run (hobject stack (some e))), State.has_whole rfl rfl⟩

/-! ### Operands -/

theorem number (hw : w.token.terminal = .number) :
    ReadAs (.expr Level.postfixed (.number (Literal.numberValue w.text) w.spelling w.range)) [w] := by
  intro _ s stack hx _
  have hmove : State.operandMove w.token = some (.done (.number (Literal.numberValue w.text) w.spelling w.range)) := by
    rw [State.operandMove, hw]
    rfl
  exact ⟨_, (hx.step hmove rfl (by simp [hw]) (by simp [hw])).run_one, State.has_whole rfl rfl⟩

theorem parens (hw : w.Is .parenOpen) (hv : v.Is .parenClose) (ih : ReadAs (.expr 1 e) ts) :
    ReadAs (.expr Level.postfixed (.parens e (w.range.upTo v.range))) (w :: ts ++ [v]) := by
  intro hg s stack hx hn
  obtain ⟨s₁, h₁, he₁⟩ := awaited ih hg (by simp [Node.children]) (.parens w.range) stack (Nat.le_refl 1)
  have hclose := he₁.divider hv (by simp [Frame.resume, Token.isSymbol, hv.1]; rfl) (by decide)
  exact ⟨_, (hx.symbol hw rfl rfl (by decide)).run (State.run_append h₁ hclose.run_one), State.has_whole rfl rfl⟩

theorem superField (hw : w.Is .kwSuper) (hx' : x.Is .dot) (hv : v.IsName none) :
    ReadAs (.expr Level.postfixed (.superIndex none (some v.spelling) (w.range.upTo v.range))) [w, x, v] := by
  intro _ s stack hx _
  obtain ⟨s₁, hstep, hsuper⟩ := hx.super hw
  have hname : State.Step ⟨stack, .superField w.range, none⟩ v
      ⟨stack, .whole (.superIndex none (some v.spelling) (w.range.upTo v.range)) .afterOperand, none⟩ :=
    ⟨by rw [hv.1]; rfl, by simp [State.feed, hv.1]; rfl⟩
  exact ⟨_, hstep.run ((hsuper.dot hx').run hname.run_one), State.has_whole rfl rfl⟩

theorem superIndex (hw : w.Is .kwSuper) (hx' : x.Is .bracketOpen) (hv : v.Is .bracketClose) (ih : ReadAs (.expr 1 e) ts) :
    ReadAs (.expr Level.postfixed (.superIndex (some e) none (w.range.upTo v.range))) (w :: x :: ts ++ [v]) := by
  intro hg s stack hx _
  obtain ⟨s₁, hstep, hsuper⟩ := hx.super hw
  obtain ⟨s₂, h₂, he₂⟩ := awaited ih hg (by simp [Node.children]) (.superIndex w.range) stack (Nat.le_refl 1)
  have hclose := he₂.divider hv (by simp [Frame.resume, Token.isSymbol, hv.1]; rfl) (by decide)
  exact ⟨_, hstep.run ((hsuper.bracket hx').run (State.run_append h₂ hclose.run_one)), State.has_whole rfl rfl⟩

theorem importFile {k : ImportKind} (ho : ImportKind.ofSymbol u = some k) (hw : w.Is u) (hd : Derives (.string e) ts) :
    ReadAs (.expr Level.postfixed (.importFile k e (w.range.upTo e.range))) (w :: ts) := by
  intro _ s stack hx _
  have hstart := hx.symbol hw (m := .goTo (.importPath k w.range)) (by cases u <;> cases ho <;> rfl) rfl
    (by rintro rfl; cases ho)
  cases hd with
  | @stringLiteral k' value v hk hr hv =>
    have hpath : State.Step ⟨stack, .importPath k w.range, none⟩ v
        ⟨stack, .whole (.importFile k (.string (.ofChars value) k' v.range) (w.range.upTo v.range)) .afterString, none⟩ := by
      refine ⟨?_, ?_⟩
      · cases ht : v.token.terminal <;> rw [ht] at hk <;> cases hk <;> rfl
      · simp only [State.feed, hk, Option.map_some, stringMove_ok hv]
        rfl
    exact ⟨_, hstart.run hpath.run_one, State.has_whole rfl rfl⟩

/-! ### Arrays and specs -/

theorem array {es : List Node} (hw : w.Is .bracketOpen) (hv : v.Is .bracketClose) (ih : ItemsOf ReadAs (es.map (.expr 1)) ts) :
    ReadAs (.expr Level.postfixed (.array es (w.range.upTo v.range))) (w :: ts ++ [v]) := by
  intro hg s stack hx _
  obtain ⟨s₁, h₁, hclose, -⟩ := ItemsOf.run_elements ih (fun e he => hg.child he) stack w.range
  exact ⟨_, (hx.symbol hw rfl rfl (by decide)).run (State.run_append h₁ (hclose v hv).run_one), State.has_whole rfl rfl⟩

theorem arrayComp {ss : List Node} (hw : w.Is .bracketOpen) (hv : v.Is .bracketClose)
    (ihe : ItemsOf ReadAs ([e].map (.expr 1)) ts) (ihs : ReadAs (.specs ss) us) :
    ReadAs (.expr Level.postfixed (.arrayComp e ss (w.range.upTo v.range))) (w :: ts ++ us ++ [v]) := by
  intro hg s stack hx _
  have hge : ∀ x ∈ [e], x.Greedy := by simpa using hg.child (by simp [Node.children])
  have hgs : ∀ n ∈ ss, n.Greedy := fun n hn => hg.child (by simp [Node.children, hn])
  obtain ⟨s₁, h₁, -, hfor⟩ := ItemsOf.run_elements ihe hge stack w.range
  obtain ⟨s₂, h₂, f, x, hhas, hresume⟩ := ihs hgs s₁ stack _ (hfor (by simp))
  have hclose := hhas.divider hv (by rw [hresume]; simp [afterSpec, hv.1]; rfl) (by decide)
  have hfinish : State.perform stack none (finishComp (.array ⟨w.range, [e]⟩) ss.reverse v.range) =
      ⟨stack, .whole (.arrayComp e ss (w.range.upTo v.range)) .afterOperand, none⟩ := by
    simp only [finishComp, List.reverse_reverse]
    rfl
  rw [show v.token.range = v.range from rfl, hfinish] at hclose
  have hrun := (hx.symbol hw rfl rfl (by decide)).run (State.run_append h₁ h₂)
  exact ⟨_, State.run_append hrun hclose.run_one, State.has_whole rfl rfl⟩

theorem forSpec {n : Word} (hw : w.Is .kwFor) (hname : n.IsName none) (hv : v.Is .kwIn) (ih : ReadAs (.expr 1 e) ts) :
    ReadAs (.spec (.forSpec n.spelling e (w.range.upTo e.range))) (w :: n :: v :: ts) := by
  intro hg s stack head ss hfor _
  have hn : State.Step ⟨stack, .forName head ss w.range, none⟩ n ⟨stack, .forIn head ss w.range n.token, none⟩ :=
    ⟨by rw [hname.1]; rfl, by simp [State.feed, hname.1]; rfl⟩
  have hin : State.Step ⟨stack, .forIn head ss w.range n.token, none⟩ v
      ⟨.forSource head ss w.range n.token :: stack, .operand, none⟩ :=
    ⟨by rw [hv.1]; rfl, by simp [State.feed, Token.isSymbol, hv.1]; rfl⟩
  obtain ⟨s₁, h₁, he₁⟩ := awaited ih hg (by simp [Node.children]) (.forSource head ss w.range n.token) stack (Nat.le_refl 1)
  exact ⟨s₁, (hfor w hw).run (hn.run (hin.run h₁)), _, e, he₁, fun _ => rfl⟩

theorem ifSpec (hw : w.Is .kwIf) (ih : ReadAs (.expr 1 e) ts) : ReadAs (.spec (.ifSpec e (w.range.upTo e.range))) (w :: ts) := by
  intro hg s stack head ss _ hif
  obtain ⟨s₁, h₁, he₁⟩ := awaited ih hg (by simp [Node.children]) (.ifSpec head ss w.range) stack (Nat.le_refl 1)
  exact ⟨s₁, (hif ⟨_, _, rfl⟩ w hw).run h₁, _, e, he₁, fun _ => rfl⟩

theorem nextSpec {n : Node} {ss : List Node} (ihss : ReadAs (.specs ss) ts) (ihs : ReadAs (.spec n) us) :
    ReadAs (.specs (ss ++ [n])) (ts ++ us) := by
  intro hg s stack head hfor
  obtain ⟨s₁, h₁, f, e, hhas, hresume⟩ := ihss (fun n hn => hg n (by simp [hn])) s stack head hfor
  have hfor₁ (w : Word) (hw : w.Is .kwFor) : s₁.Step w ⟨stack, .forName head ss.reverse w.range, none⟩ := by
    exact hhas.divider hw (by rw [hresume]; simp [afterSpec, hw.1]; rfl) (by decide)
  have hif₁ (w : Word) (hw : w.Is .kwIf) : s₁.Step w ⟨.ifSpec head ss.reverse w.range :: stack, .operand, none⟩ := by
    exact hhas.divider hw (by rw [hresume]; simp [afterSpec, hw.1]; rfl) (by decide)
  obtain ⟨s₂, h₂, hspecs⟩ := ihs (hg n (by simp)) s₁ stack head ss.reverse hfor₁ fun _ => hif₁
  exact ⟨s₂, State.run_append h₁ h₂, by simpa using hspecs⟩

/-! ### Objects -/

theorem object {ms : List Node} (hw : w.Is .braceOpen) (hv : v.Is .braceClose) (ih : ItemsOf ReadAs (ms.map .member) ts) :
    ReadAs (.object (.object ms (w.range.upTo v.range))) (w :: ts ++ [v]) := by
  intro hg
  refine ⟨w, ts ++ [v], rfl, hw, fun stack base => ?_⟩
  obtain ⟨s₁, h₁, hclose, -⟩ := ItemsOf.run_members ih (fun m hm => hg.child hm) stack base w.range
  exact State.run_append h₁ (hclose v hv).run_one

theorem objectComp {ms ss : List Node} {f : Node} (hw : w.Is .braceOpen) (hv : v.Is .braceClose)
    (ha : ∀ m ∈ ms, isObjectAssert m = false) (hf : ms.filter isField = [f]) (hc : isComputedField f = true)
    (ihm : ItemsOf ReadAs (ms.map .member) ts) (ihs : ReadAs (.specs ss) us) :
    ReadAs (.object (.objectComp ms ss (w.range.upTo v.range))) (w :: ts ++ us ++ [v]) := by
  intro hg
  refine ⟨w, ts ++ us ++ [v], by simp, hw, fun stack base => ?_⟩
  have hne : ms ≠ [] := by
    rintro rfl
    cases hf
  obtain ⟨s₁, h₁, -, hfor⟩ := ItemsOf.run_members ihm (fun m hm => hg.child (by simp [Node.children, hm])) stack base w.range
  obtain ⟨s₂, h₂, g, x, hhas, hresume⟩ := ihs (fun n hn => hg.child (by simp [Node.children, hn])) s₁ stack _ (hfor hne)
  have hclose := hhas.divider hv (by rw [hresume]; simp [afterSpec, hv.1]; rfl) (by decide)
  have hfault : membersFault ms w.range.start = none := by
    have hassert : ms.any isObjectAssert = false := by simpa using ha
    simp [membersFault, hassert, hf, hc]
  have hfinish : State.perform stack none (finishComp (.object ⟨base, w.range, ms.reverse⟩) ss.reverse v.range) =
      ⟨stack, .whole (extended base (.objectComp ms ss (w.range.upTo v.range))) .afterOperand, none⟩ := by
    simp only [finishComp, List.reverse_reverse, State.perform, hfault]
    cases base <;> rfl
  rw [show v.token.range = v.range from rfl, hfinish] at hclose
  exact State.run_append (State.run_append h₁ h₂) hclose.run_one

theorem objectLocal {b : Bind Node} (hw : w.Is .kwLocal) (ih : ReadAs (.bind b) ts) :
    ReadAs (.member (.objectLocal b (w.range.upTo b.range))) (w :: ts) := by
  intro hg s stack object hx
  have hstart := hx.step (m := .goTo (.bindName (.inObject object w.range))) (by rw [State.memberMove, hw.1]; rfl) rfl
  obtain ⟨s₁, t, ps, e, h₁, he₁, rfl⟩ := ih (hg.child (by simp [Node.children])) stack (.inObject object w.range)
  exact ⟨s₁, hstart.run h₁, _, e, he₁, fun _ _ h => h⟩

theorem objectAssert (hw : w.Is .kwAssert) (ih : ReadAs (.expr 1 e) ts) :
    ReadAs (.member (.objectAssert e none (w.range.upTo e.range))) (w :: ts) := by
  intro hg s stack object hx
  have hstart := hx.step (m := .await (.objectAssertCond object w.range)) (by rw [State.memberMove, hw.1]; rfl) rfl
  obtain ⟨s₁, h₁, he₁⟩ := awaited ih hg (by simp [Node.children]) (.objectAssertCond object w.range) stack (Nat.le_refl 1)
  refine ⟨s₁, hstart.run h₁, _, e, he₁, fun t move hmove => ?_⟩
  have hno : t.isSymbol .colon = false := by
    by_contra hne
    have ht : t.terminal = .symbol .colon := by simpa [Token.isSymbol] using hne
    rw [afterMember, ht] at hmove
    cases hmove
  simp only [Frame.resume, hno]
  exact hmove

theorem objectAssertMessage (hw : w.Is .kwAssert) (hv : v.Is .colon) (ihe : ReadAs (.expr 1 e) ts)
    (ihm : ReadAs (.expr 1 m) us) :
    ReadAs (.member (.objectAssert e (some m) (w.range.upTo m.range))) (w :: ts ++ v :: us) := by
  intro hg s stack object hx
  have hstart := hx.step (m := .await (.objectAssertCond object w.range)) (by rw [State.memberMove, hw.1]; rfl) rfl
  obtain ⟨s₁, h₁, he₁⟩ := awaited ihe hg (by simp [Node.children]) (.objectAssertCond object w.range) stack (Nat.le_refl 1)
  have hcolon := he₁.divider hv (by simp [Frame.resume, Token.isSymbol, hv.1]; rfl) (by decide)
  obtain ⟨s₂, h₂, hm₂⟩ := awaited ihm hg (by simp [Node.children]) (.objectAssertMessage object w.range e) stack (Nat.le_refl 1)
  exact ⟨s₂, hstart.run (State.run_append h₁ (hcolon.run h₂)), _, m, hm₂, fun _ _ h => h⟩

section Fields

variable {kind : NameKind} {n : Node} {q : Range} {vis : Visibility}

theorem field (hvis : Visibility.ofSymbol u = some vis) (hv : v.Is u) (ihn : ReadAs (.fieldName q kind n) ts)
    (ihe : ReadAs (.expr 1 e) us) : ReadAs (.member (.field kind n e vis false none (q.upTo e.range))) (ts ++ v :: us) := by
  intro hg s stack object hx
  obtain ⟨c, hc, h₁⟩ := ihn (hg.child (by simp [Node.children])) s stack object hx
  obtain ⟨s₂, h₂, he₂⟩ := awaited ihe hg (by simp [Node.children]) (.fieldBody ⟨object, q, kind, n⟩ none false vis) stack
    (Nat.le_refl 1)
  exact ⟨s₂, State.run_append h₁ ((step_visibility hc hvis hv).run h₂), _, e, he₂, fun _ _ h => h⟩

theorem fieldPlus (hplus : x.Is .plus) (hvis : Visibility.ofSymbol u = some vis) (hv : v.Is u)
    (ihn : ReadAs (.fieldName q kind n) ts) (ihe : ReadAs (.expr 1 e) us) :
    ReadAs (.member (.field kind n e vis true none (q.upTo e.range))) (ts ++ x :: v :: us) := by
  intro hg s stack object hx
  obtain ⟨c, hc, h₁⟩ := ihn (hg.child (by simp [Node.children])) s stack object hx
  have hplus : State.Step ⟨stack, .afterFieldName ⟨object, q, kind, n⟩ c, none⟩ x
      ⟨stack, .plusVisibility ⟨object, q, kind, n⟩, none⟩ := by
    refine ⟨?_, by simp [State.feed, Token.isSymbol, hplus.1]; rfl⟩
    rw [hplus.1]
    rcases hc with rfl | rfl <;> rfl
  have hstep : State.Step ⟨stack, .plusVisibility ⟨object, q, kind, n⟩, none⟩ v
      ⟨.fieldBody ⟨object, q, kind, n⟩ none true vis :: stack, .operand, none⟩ := by
    refine ⟨?_, by simp [State.feed, State.visibilityOf, hv.1, hvis]; rfl⟩
    rw [hv.1]
    cases u <;> cases hvis <;> rfl
  obtain ⟨s₂, h₂, he₂⟩ := awaited ihe hg (by simp [Node.children]) (.fieldBody ⟨object, q, kind, n⟩ none true vis) stack
    (Nat.le_refl 1)
  exact ⟨s₂, State.run_append h₁ (hplus.run (hstep.run h₂)), _, e, he₂, fun _ _ h => h⟩

theorem method {ps : List (Param Node)} (hvis : Visibility.ofSymbol u = some vis) (hv : v.Is u)
    (ihn : ReadAs (.fieldName q kind n) ts) (ihp : ReadAs (.params ps) us) (ihe : ReadAs (.expr 1 e) vs) :
    ReadAs (.member (.field kind n e vis false (some (.function ps e (q.upTo e.range))) (q.upTo e.range)))
      (ts ++ us ++ v :: vs) := by
  intro hg s stack object hx
  have hfun : (Node.function ps e (q.upTo e.range)).Greedy := hg.child (by simp [Node.children])
  obtain ⟨hps, he⟩ := (Node.greedy_function _ _ _).mp hfun
  obtain ⟨c, hc, h₁⟩ := ihn (hg.child (by simp [Node.children])) s stack object hx
  obtain ⟨x, us, rfl, hx, hparams⟩ := ihp hps
  have hopen : State.Step ⟨stack, .afterFieldName ⟨object, q, kind, n⟩ c, none⟩ x
      ⟨stack, .param (.method ⟨object, q, kind, n⟩) [], none⟩ := by
    refine ⟨?_, by simp [State.feed, Token.isSymbol, hx.1]; rfl⟩
    rw [hx.1]
    rcases hc with rfl | rfl <;> rfl
  have hstep : State.Step ⟨stack, .afterParams (.method ⟨object, q, kind, n⟩) ps.reverse, none⟩ v
      ⟨.fieldBody ⟨object, q, kind, n⟩ (some ps.reverse) false vis :: stack, .operand, none⟩ := by
    refine ⟨?_, by simp [State.feed, State.afterParams, State.visibilityOf, hv.1, hvis]; rfl⟩
    rw [hv.1]
    cases u <;> cases hvis <;> rfl
  obtain ⟨s₂, h₂, he₂⟩ := ExprRead.awaited (ihe he) (.fieldBody ⟨object, q, kind, n⟩ (some ps.reverse) false vis) stack
    (Nat.le_refl 1)
  refine ⟨s₂, ?_, _, e, he₂, fun t move hmove => ?_⟩
  · exact State.run_append (State.run_append h₁ (hopen.run (hparams stack _))) (hstep.run h₂)
  · simpa [Frame.resume, fieldOf] using hmove

end Fields

theorem idName (hw : w.IsName none) : ReadAs (.fieldName w.range .id (.string w.spelling .double w.range)) [w] := by
  intro _ s stack object hx
  refine ⟨.afterFieldName, .inl rfl, ?_⟩
  have hmove : State.memberMove object w.token =
      some (.goTo (.afterFieldName ⟨object, w.range, .id, .string w.spelling .double w.range⟩ .afterFieldName)) := by
    rw [State.memberMove, hw.1]
    rfl
  exact (hx.step hmove rfl).run_one

theorem stringName (hd : Derives (.string e) ts) : ReadAs (.fieldName e.range .string e) ts := by
  intro _ s stack object hx
  refine ⟨.afterString, .inr rfl, ?_⟩
  cases hd with
  | @stringLiteral k value w hk hr hv =>
    have hmove : State.memberMove object w.token = some (.goTo
        (.afterFieldName ⟨object, w.range, .string, .string (.ofChars value) k w.range⟩ .afterString)) := by
      rw [← stringMove_ok hv fun e => .afterFieldName ⟨object, w.range, .string, e⟩ .afterString]
      cases ht : w.token.terminal <;> rw [ht] at hk <;> cases hk <;> simp only [State.memberMove, ht] <;> rfl
    exact (hx.step hmove rfl).run_one

theorem computedName (hw : w.Is .bracketOpen) (hv : v.Is .bracketClose) (ih : ReadAs (.expr 1 e) ts) :
    ReadAs (.fieldName w.range .computed e) (w :: ts ++ [v]) := by
  intro hg s stack object hx
  refine ⟨.afterFieldName, .inl rfl, ?_⟩
  have hstart := hx.step (m := .await (.computedName object w.range)) (by rw [State.memberMove, hw.1]; rfl) rfl
  obtain ⟨s₁, h₁, he₁⟩ := ExprRead.awaited (ih hg) (.computedName object w.range) stack (Nat.le_refl 1)
  have hclose := he₁.divider hv (by simp [Frame.resume, Token.isSymbol, hv.1]; rfl) (by decide)
  exact hstart.run (State.run_append h₁ hclose.run_one)

end ReadAs

/-! ## Derivations -/

/-- What is derived is read, one production at a time. -/
theorem Derives.readAs {p : Phrase} {ts : List Word} (h : Derives p ts) : Lifted ReadAs p ts := by
  induction h with
  | looser hl _ ih => exact fun hg s stack hx hn => ih hg s stack hx (Nat.le_trans hn hl)
  -- operators, and the forms that start with a keyword
  | binary ho hl hw hr ihl ihr => exact ReadAs.binary ho hl hw hr ihl ihr
  | inSuper hl hw hv ihl => exact ReadAs.inSuper hl hw hv ihl
  | unary ho hw he ih => exact ReadAs.unary ho hw he ih
  | localIn hw _ hv he ihb ihe => exact ReadAs.localIn hw hv he ihb ihe
  | ifThen hw _ hv he ihc ihe => exact ReadAs.ifThen hw hv he ihc ihe
  | ifThenElse hw _ hv _ hx he ihc ihy ihe => exact ReadAs.ifThenElse hw hv hx he ihc ihy ihe
  | function hw _ he ihp ihe => exact ReadAs.function hw he ihp ihe
  | assertion hw _ hv he ihc ihe => exact ReadAs.assertion hw hv he ihc ihe
  | assertionMessage hw _ hv _ hx he ihc ihm ihe => exact ReadAs.assertionMessage hw hv hx he ihc ihm ihe
  | error hw he ih => exact ReadAs.error hw he ih
  -- binds and parameters
  | valueBind hw hv _ ih => exact ReadAs.valueBind hw hv ih
  | functionBind hw _ hv _ ihp ihe => exact ReadAs.functionBind hw hv ihp ihe
  | params hw _ hv ih => exact fun hg => ⟨_, _, rfl, hw, ItemsOf.run_params ih hg hv⟩
  | param hw => exact ReadAs.param hw
  | paramValue hw hv _ ih => exact ReadAs.paramValue hw hv ih
  -- suffixes
  | fieldAccess he hw hv ih => exact ReadAs.fieldAccess he hw hv ih
  | index he hw _ hv ihe ihi => exact ReadAs.index he hw hv ihe ihi
  | slice he hw _ hx _ hv ihe iha ihb => exact ReadAs.slice he hw hx hv ihe iha ihb
  | sliceStep he hw _ hx _ hy _ hv ihe iha ihb ihd => exact ReadAs.sliceStep he hw hx hy hv ihe iha ihb ihd
  | sliceNoStop he hw _ hx _ hv ihe iha ihd => exact ReadAs.sliceNoStop he hw hx hv ihe iha ihd
  | absent => rfl
  | present _ ih => exact ih
  | call he hw _ hv ihe iha => exact ReadAs.call he hw hv ihe iha
  | apply hd ih => exact fun hg s stack hx hn => ⟨_, ih hg s stack hx hn, State.has_whole (Derives.apply hd).level_eq rfl⟩
  | tailstrict _ hw ih => exact ReadAs.tailstrict hw ih
  | positional _ ih => exact ReadAs.positional ih
  | named hw hv _ ih => exact ReadAs.named hw hv ih
  | applyBrace he _ ihe iho => exact ReadAs.applyBrace he ihe iho
  -- operands
  | null hw | true hw | false hw | self hw | dollar hw =>
    exact fun _ s stack hx _ => ⟨_, (hx.symbol hw rfl rfl (by decide)).run_one, State.has_whole rfl rfl⟩
  | number hw _ => exact ReadAs.number hw
  | var hw =>
    intro _ s stack hx _
    obtain ⟨s₁, hstep, hholds⟩ := hx.name hw.1
    exact ⟨s₁, hstep.run_one, hholds.has⟩
  | stringLiteral => trivial
  | string hd _ => exact fun _ s stack hx _ => hx.string hd
  | parens hw _ hv ih => exact ReadAs.parens hw hv ih
  | superField hw hx hv => exact ReadAs.superField hw hx hv
  | superIndex hw hx _ hv ih => exact ReadAs.superIndex hw hx hv ih
  | importFile ho hw hd _ => exact ReadAs.importFile ho hw hd
  -- arrays
  | array hw _ hv ih => exact ReadAs.array hw hv ih
  | arrayComp hw _ _ hv ihe ihs => exact ReadAs.arrayComp hw hv ihe ihs
  | forSpec hw hn hv _ ih => exact ReadAs.forSpec hw hn hv ih
  | ifSpec hw _ ih => exact ReadAs.ifSpec hw ih
  | firstSpec _ ih => exact fun hg s stack head hfor => ih (hg _ List.mem_cons_self) s stack head [] hfor (by rintro ⟨_, _, ⟨⟩⟩)
  | nextSpec _ _ ihss ihs => exact ReadAs.nextSpec ihss ihs
  -- objects
  | objectExpr hd ih =>
    intro hg s stack hx _
    obtain ⟨w, us, rfl, hw, hobject⟩ := ih hg
    exact ⟨_, (hx.symbol hw rfl rfl (by decide)).run (hobject stack none), State.has_whole (Derives.objectExpr hd).level_eq rfl⟩
  | object hw _ hv ih => exact ReadAs.object hw hv ih
  | objectComp hw _ _ hv ha hf hc ihm ihs => exact ReadAs.objectComp hw hv ha hf hc ihm ihs
  | objectLocal hw _ ih => exact ReadAs.objectLocal hw ih
  | objectAssert hw _ ih => exact ReadAs.objectAssert hw ih
  | objectAssertMessage hw _ hv _ ihe ihm => exact ReadAs.objectAssertMessage hw hv ihe ihm
  | field _ hvis hv _ ihn ihe => exact ReadAs.field hvis hv ihn ihe
  | fieldPlus _ hx hvis hv _ ihn ihe => exact ReadAs.fieldPlus hx hvis hv ihn ihe
  | method _ _ hvis hv _ ihn ihp ihe => exact ReadAs.method hvis hv ihn ihp ihe
  | idName hw => exact ReadAs.idName hw
  | stringName hd _ => exact ReadAs.stringName hd
  | computedName hw _ hv ih => exact ReadAs.computedName hw hv ih
  -- lists
  | one _ ih => exact .one (ih.part (fun _ _ => trivial) fun _ _ => trivial)
  | more _ hw _ ihs ih => exact .more ihs hw (ih.part (fun _ _ => trivial) fun _ _ => trivial)
  | noItems => exact .empty
  | items _ ih => exact .seq ih
  | itemsComma _ hw ih => exact .comma ih hw

/-- The machine reads the words of a greedy program, and then has the program. -/
theorem Derives.run {e : Node} {ts : List Word} (h : Derives (.expr 1 e) ts) (hg : e.Greedy) :
    ∃ s, State.start.run ts = some s ∧ s.finish = some e ∧ s.fault = none := by
  obtain ⟨s, hr, hhas⟩ := h.readAs hg .start [] .operand (Nat.le_refl 1)
  refine ⟨s, hr, hhas.finish, ?_⟩
  obtain ⟨fs, x, hx, -⟩ := hhas
  exact hx.fault_eq

end JsonnetLocals
