/-
  JsonnetLocals.Proofs.Syntax.Language — the texts that are read are those of the grammar.

  Tokens are a program when the grammar derives them (`WellFormed`); its tree is that of the greedy
  derivation (`IsAst`). Proved:
  - the tree of a text that is read is the tree of its tokens (`Scans.isAst`): its derivation has a
    greedy one beside it, and the machine reads the same words in one way only,
  - tokens have one tree, up to places (`IsAst.unique`): runs over tokens that are spelled alike
    go alike (`State.Alike.run`),
  - whole spellings joined by spaces are read as the tokens they spell (`exists_scans_joined`).
-/

import JsonnetLocals.Proofs.Syntax.Accept
import JsonnetLocals.Proofs.Syntax.Equivariance
import JsonnetLocals.Proofs.Syntax.Locations
import JsonnetLocals.Proofs.Syntax.Spelling

namespace JsonnetLocals

/-- The grammar derives the tokens. -/
def WellFormed (xs : List Spelled) : Prop := ∃ e ws, ws.map Word.spelled = xs ∧ Derives (.expr 1 e) ws

/-- The tree of the tokens: that of the derivation in which every body extends as far to the right as it can. -/
def IsAst (xs : List Spelled) (e : Node) : Prop := ∃ ws, ws.map Word.spelled = xs ∧ Derives (.expr 1 e) ws ∧ e.Greedy

/-- Tokens that are derived have a tree. -/
theorem WellFormed.exists_isAst {xs : List Spelled} (h : WellFormed xs) : ∃ e, IsAst xs e := by
  obtain ⟨e, ws, hws, hd⟩ := h
  obtain ⟨e', hd', hg⟩ := hd.exists_greedy
  exact ⟨e', ws, hws, hd', hg⟩

/-! ## Runs that go alike -/

/-- The states differ in places only. -/
def State.Alike (u s : State) : Prop := u.rename .same true = s.rename .same true

namespace State

variable {s s' u : State} {w v : Word} {ts us : List Word}

/-- When the names stay, it does not matter whether a name that begins an argument is a variable. -/
theorem rename_same (s : State) (b : Bool) : s.rename .same b = s.rename .same true := by
  obtain ⟨stack, focus, fault⟩ := s
  cases focus with
  | argumentName => cases b <;> rfl
  | _ => rfl

theorem Alike.step (h : u.Alike s) (hv : v.spelled = w.spelled) (hstep : s.Step w s') (hn : s'.fault = none) :
    ∃ u', u.Step v u' ∧ u'.Alike s' := by
  obtain ⟨hterminal, htext⟩ : v.token.terminal = w.token.terminal ∧ v.token.text = w.token.text := Spelled.mk.inj hv
  have hstates (b : Bool) : u.rename .same b = s.rename .same b := by
    rw [rename_same u, rename_same s]
    exact h
  have htoken : v.token.rename .same true = w.token.rename .same (s.focus.role w.token none).isSome := by
    rw [Token.rename_same, Token.rename_same, hterminal, htext]
  obtain ⟨u', hfeed, halike⟩ := exists_feed (hstates _) htoken hstep.feed hn
  refine ⟨u', ⟨?_, hfeed⟩, halike⟩
  rw [context_eq h, hterminal]
  exact hstep.admits

theorem fault_of_run (h : s.run ts = some s') (hn : s'.fault = none) : s.fault = none := by
  induction ts generalizing s with
  | nil =>
    cases h
    exact hn
  | cons w ts ih =>
    obtain ⟨s₁, hstep, hrun⟩ := exists_step_of_run h
    exact fault_of_feed hstep.feed (ih hrun)

/-- Runs over words that are spelled alike go alike. -/
theorem Alike.run (h : u.Alike s) (hs : us.map Word.spelled = ts.map Word.spelled) (hr : s.run ts = some s')
    (hn : s'.fault = none) : ∃ u', u.run us = some u' ∧ u'.Alike s' := by
  induction ts generalizing s u us with
  | nil =>
    obtain rfl := List.map_eq_nil_iff.mp hs
    cases hr
    exact ⟨u, rfl, h⟩
  | cons w ts ih =>
    obtain ⟨v, us, rfl, hv, hus⟩ := List.map_eq_cons_iff.mp hs
    obtain ⟨s₁, hstep, hrun⟩ := exists_step_of_run hr
    obtain ⟨u₁, hstep', h₁⟩ := h.step hv hstep (fault_of_run hrun hn)
    obtain ⟨u', hrun', h'⟩ := ih h₁ hus hrun
    exact ⟨u', hstep'.run hrun', h'⟩

theorem Alike.finish {e : Node} (h : u.Alike s) (hf : s.finish = some e) :
    ∃ e', u.finish = some e' ∧ e'.relabel id id = e.relabel id id := by
  have hfinish := finish_rename (r := .same) (b := true) u
  rw [h, finish_rename, hf] at hfinish
  obtain ⟨e', he', htree⟩ := Option.map_eq_some_iff.mp hfinish.symm
  exact ⟨e', he', htree⟩

theorem Alike.fault_eq (h : u.Alike s) : u.fault = s.fault := by
  have hfault : (u.rename .same true).fault = (s.rename .same true).fault := congrArg State.fault h
  exact hfault

end State

/-- Tokens have one tree, up to places. -/
theorem IsAst.unique {xs : List Spelled} {e e' : Node} (h : IsAst xs e) (h' : IsAst xs e') :
    e'.relabel id id = e.relabel id id := by
  obtain ⟨ts, hts, hd, hg⟩ := h
  obtain ⟨us, hus, hd', hg'⟩ := h'
  obtain ⟨s, hrun, hfinish, hfault⟩ := hd.run hg
  obtain ⟨u, hrun', hfinish', -⟩ := hd'.run hg'
  have hstart : State.start.Alike .start := rfl
  obtain ⟨u', hrun'', halike⟩ := hstart.run (hus.trans hts.symm) hrun hfault
  obtain rfl : u = u' := Option.some.inj (hrun'.symm.trans hrun'')
  obtain ⟨e₁, he₁, htree⟩ := halike.finish hfinish
  obtain rfl : e' = e₁ := Option.some.inj (hfinish'.symm.trans he₁)
  exact htree

/-! ## Texts -/

section Texts

variable {file : Text} {s : State} {before cs : List Char} {ws : List Word} {e : Node}

/-- A run over a text is one over its tokens. -/
theorem Scans.run (h : Scans file s before cs ws e) : ∃ s', s.run (significant ws) = some s' ∧ s'.finish = some e := by
  induction h with
  | @stop s _ _ hf _ => exact ⟨s, rfl, hf⟩
  | skip _ hi _ ih =>
    rw [significant_skip (by exact hi)]
    exact ih
  | take hm hi hf _ ih =>
    obtain ⟨s', hrun, hfinish⟩ := ih
    rw [significant_take (by exact hi)]
    exact ⟨s', State.Step.run ⟨Terminal.first_allowed hm, hf⟩ hrun, hfinish⟩

/-- The tree of a text is the tree of its tokens. -/
theorem Scans.isAst (h : Scans file .start [] cs ws e) : IsAst ((significant ws).map Word.spelled) e := by
  have hd := h.derives
  obtain ⟨e', hd', hg⟩ := hd.exists_greedy
  obtain ⟨s, hrun, hfinish⟩ := h.run
  obtain ⟨s', hrun', hfinish', -⟩ := hd'.run hg
  -- the machine reads the words in one way only, so the greedy tree is the one that was read
  obtain rfl : s = s' := Option.some.inj (hrun.symm.trans hrun')
  obtain rfl : e = e' := Option.some.inj (hfinish.symm.trans hfinish')
  exact ⟨significant ws, rfl, hd, hg⟩

theorem Word.Is.isIgnored {w : Word} {u : Symbol} (h : w.Is u) : w.isIgnored = false := by
  rw [Word.isIgnored, h.1]
  rfl

theorem Word.IsName.isIgnored {w : Word} {role : Option OccurrenceKind} (h : w.IsName role) : w.isIgnored = false := by
  rw [Word.isIgnored, h.1]
  rfl

/-- The grammar speaks of no layout and no comments. -/
theorem Derives.significant {p : Phrase} {ts : List Word} (h : Derives p ts) : ∀ w ∈ ts, w.isIgnored = .false := by
  induction h with
  | number ht _ =>
    intro w hw
    obtain rfl := List.mem_singleton.mp hw
    rw [Word.isIgnored, ht]
    rfl
  | stringLiteral hk _ _ =>
    intro w hw
    obtain rfl := List.mem_singleton.mp hw
    rw [Word.isIgnored]
    cases ht : w.token.terminal <;> rw [ht] at hk <;> first | rfl | cases hk
  | _ => grind [→ Word.Is.isIgnored, → Word.IsName.isIgnored]

/-- The space in front of a whole spelling is skipped. -/
theorem Scans.space {v : Word} {xs : List Spelled} (hi : v.isIgnored = false) (hw : v.spelled.Whole)
    (h : Scans file s (before ++ [' ']) (joined (v.spelled :: xs)) ws e) :
    Scans file s before ([' '] ++ joined (v.spelled :: xs)) (⟨before, tokenAt file before .whitespace [' '], none⟩ :: ws) e := by
  obtain ⟨rest, hrest, -⟩ := exists_joined_cons v.spelled xs
  refine .skip ?_ rfl h
  rw [hrest]
  have hfirst : Terminal.first s.focus.context.admits (' ' :: (v.text ++ rest)) = some (.whitespace, 1) :=
    Terminal.first_space hi hw.1 hw.2
  exact hfirst

/-- Whole spellings joined by spaces are read as the tokens they spell. -/
theorem exists_scans_joined {s' u : State} {ts : List Word} (hi : ∀ w ∈ ts, w.isIgnored = false)
    (hw : ∀ w ∈ ts, w.spelled.Whole) (hr : s.run ts = some s') (hf : s'.finish = some e) (hn : s'.fault = none)
    (h : u.Alike s) (file : Text) (before : List Char) :
    ∃ ws e', Scans file u before (joined (ts.map Word.spelled)) ws e' ∧
      (significant ws).map Word.spelled = ts.map Word.spelled := by
  induction ts generalizing s u before with
  | nil =>
    cases hr
    obtain ⟨e', he', -⟩ := h.finish hf
    exact ⟨[], e', .stop he' (h.fault_eq.trans hn), rfl⟩
  | cons w ts ih =>
    rw [List.forall_mem_cons] at hi hw
    obtain ⟨s₁, hstep, hrun⟩ := State.exists_step_of_run hr
    have hplaced : Word.spelled ⟨before, tokenAt file before w.token.terminal w.text, none⟩ = w.spelled := rfl
    obtain ⟨u₁, ⟨hadmits, hfeed⟩, h₁⟩ := h.step hplaced hstep (State.fault_of_run hrun hn)
    -- what follows is read from the end of the spelling on, behind a space if there is anything
    have hrest : ∃ rest ws e', joined (w.spelled :: ts.map Word.spelled) = w.text ++ rest ∧ LayoutNext rest ∧
        Scans file u₁ (before ++ w.text) rest ws e' ∧ (significant ws).map Word.spelled = ts.map Word.spelled := by
      cases ts with
      | nil =>
        obtain ⟨ws, e', hscans, hsig⟩ := ih hi.2 hw.2 hrun h₁ (before ++ w.text)
        exact ⟨[], ws, e', by simp [Word.spelled], layoutNext_nil, hscans, hsig⟩
      | cons v ts =>
        obtain ⟨ws, e', hscans, hsig⟩ := ih hi.2 hw.2 hrun h₁ (before ++ w.text ++ [' '])
        rw [List.map_cons] at hscans
        have hspace := hscans.space (hi.2 v List.mem_cons_self) (hw.2 v List.mem_cons_self)
        refine ⟨_, _, e', joined_cons_cons .., layoutNext_cons rfl _, hspace, ?_⟩
        rw [significant_skip rfl]
        exact hsig
    obtain ⟨rest, ws, e', htext, hspace, hscans, hsig⟩ := hrest
    rw [List.map_cons, htext]
    have hfirst := Terminal.first_of_whole hadmits hi.1 hw.1.1 hw.1.2 hspace
    refine ⟨_, e', .take hfirst hi.1 hfeed hscans, ?_⟩
    rw [significant_take (by exact hi.1), List.map_cons, hsig]
    rfl

end Texts

/-- The texts that are read are those of the grammar. The tokens of a text that is read make up the text, with
    layout and comments between them, and its tree is the tree of the tokens. And tokens that the grammar derives, each
    with a whole spelling, are read when spaces join them. -/
theorem parse_accepts_grammar (file : Text) :
    (∀ text tree, parseChars file text = .ok tree →
      Scans file .start [] text (words file text) tree ∧ texts (words file text) = text ∧
        (∀ w ∈ words file text, w.TokenOf text) ∧
        WellFormed ((significant (words file text)).map Word.spelled) ∧
        IsAst ((significant (words file text)).map Word.spelled) tree ∧
        ∀ e, IsAst ((significant (words file text)).map Word.spelled) e → tree.relabel id id = e.relabel id id) ∧
    ∀ xs, WellFormed xs → (∀ x ∈ xs, x.Whole) →
      ∃ tree, parseChars file (joined xs) = .ok tree ∧ IsAst xs tree ∧
        ∀ e, IsAst xs e → tree.relabel id id = e.relabel id id := by
  constructor
  · intro text tree h
    have hscans : Scans file .start [] text (words file text) tree := scans_of_parseFrom h
    have hast := hscans.isAst
    refine ⟨hscans, hscans.texts_eq, hscans.ordered.tokens, ?_, hast, fun e he => he.unique hast⟩
    exact ⟨tree, _, rfl, hscans.derives⟩
  · intro xs hxs hwhole
    obtain ⟨e, ts, rfl, hd, hg⟩ := hxs.exists_isAst
    obtain ⟨s, hrun, hfinish, hfault⟩ := hd.run hg
    have hw : ∀ w ∈ ts, w.spelled.Whole := fun w hw => hwhole _ (List.mem_map_of_mem hw)
    obtain ⟨ws, tree, hscans, htokens⟩ : ∃ ws tree, Scans file .start [] (joined (ts.map Word.spelled)) ws tree ∧
        (significant ws).map Word.spelled = ts.map Word.spelled :=
      exists_scans_joined hd.significant hw hrun hfinish hfault rfl file []
    have hast := hscans.isAst
    rw [htokens] at hast
    exact ⟨tree, hscans.parseFrom_eq .origin, hast, fun e he => he.unique hast⟩

/-- A sum whose left operand is an error spells an error whose message is a sum. -/
theorem parse_accepts_grammar_error :
    ∃ tree, parseChars "" "error a + b".toList = .ok tree ∧
      texts (words "" "error a + b".toList) = "error a + b".toList ∧
      tree.relabel id id = .error (.binary (.var "a" .unset) .add (.var "b" .unset) .unset) .unset := by
  let w : Word := ⟨[], ⟨.symbol .kwError, "error".toList, .unset⟩, none⟩
  let a : Word := ⟨[], ⟨.name, "a".toList, .unset⟩, some .reference⟩
  let p : Word := ⟨[], ⟨.symbol .plus, "+".toList, .unset⟩, none⟩
  let b : Word := ⟨[], ⟨.name, "b".toList, .unset⟩, some .reference⟩
  have hw : w.Is .kwError := ⟨rfl, rfl⟩
  have hp : p.Is .plus := ⟨rfl, rfl⟩
  have ha : Derives (.expr Level.postfixed (.var "a" .unset)) [a] := .var (w := a) ⟨rfl, rfl⟩
  have hb : Derives (.expr Level.postfixed (.var "b" .unset)) [b] := .var (w := b) ⟨rfl, rfl⟩
  have hsum : Derives (.expr 1 (.binary (.error (.var "a" .unset) .unset) .add (.var "b" .unset) .unset)) [w, a, p, b] :=
    .looser (by decide) (.binary rfl (.looser (by decide) (.error hw (.looser (by decide) ha))) hp (.looser (by decide) hb))
  have hmessage : Derives (.expr 1 (.error (.binary (.var "a" .unset) .add (.var "b" .unset) .unset) .unset)) [w, a, p, b] :=
    .looser (by decide)
      (.error hw (.looser (by decide) (.binary rfl (.looser (by decide) ha) hp (.looser (by decide) hb))))
  obtain ⟨tree, hparse, -, htree⟩ :=
    (parse_accepts_grammar "").2 ([w, a, p, b].map Word.spelled) ⟨_, _, rfl, hsum⟩ (by decide)
  refine ⟨tree, hparse, ((parse_accepts_grammar "").1 _ tree hparse).2.1, ?_⟩
  exact htree _ ⟨_, rfl, hmessage, by decide +kernel⟩

end JsonnetLocals
