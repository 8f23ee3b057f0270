/-
  JsonnetLocals.Proofs.Log.Lineage — what is above a logger, whatever order the loggers came in.

  A registry is `Linked` if every logger is right below the nearest one above it, and every name in
  between that is no logger yet remembers it. `touch_cases` says what making a logger changes: which
  loggers it takes over (`adopts_foldl`) and which parent it finds (`findParent_eq`). It keeps the
  registry linked (`Linked.touch`).

  So the way of a record (`route`, the names that `chain` meets: `chainFrom_eq`)
  - leads upwards at every step (`Linked.pairwise_routeFrom`), and
  - meets every logger above a plain name, however late it came (`Linked.mem_routeFrom_of_mem_cuts`).

  Two kinds of names are not plain. Of two dots in a row the first is none, so what stands before it
  may be missed. And the root's name starts with `r`, `ro` and `roo`: a logger of such a name takes
  over none that is right below the root.
-/

import JsonnetLocals.Proofs.Log.Dotted

namespace JsonnetLocals.Registry

variable {r : Registry} {name k m p b : Text}

/-! ## Loggers that are there -/

def made (r : Registry) (k : Text) : Bool := (r.loggers.lookup k).isSome

def waiting (r : Registry) (m : Text) : List Text := (r.passed.lookup m).getD []

@[simp]
theorem passed_setLogger (r : Registry) (name : Text) (l : Logger) : (r.setLogger name l).passed = r.passed := by
  unfold setLogger
  split <;> rfl

@[simp]
theorem verdicts_setLogger (r : Registry) (name : Text) (l : Logger) :
    (r.setLogger name l).verdicts = r.verdicts := by
  unfold setLogger
  split <;> rfl

theorem made_setLogger (r : Registry) (name k : Text) (l : Logger) :
    (r.setLogger name l).made k = (r.made k || !isRoot name && k == name) := by
  unfold setLogger made
  by_cases hn : isRoot name
  · simp [hn]
  · by_cases hk : k = name
    · simp [hn, hk, Table.lookup_put]
    · simp [hn, hk, Table.lookup_put]

theorem logger_of_not_made (hk : isRoot k = false) (h : r.made k = false) : r.logger k = .fresh none := by
  have hnone : r.loggers.lookup k = none := by simpa [made] using h
  simp [logger, hk, hnone]

theorem logger_of_root (hk : isRoot k = true) : r.logger k = r.root := by simp [logger, hk]

/-- The loggers as the order in which they came leaves them: each is right below the nearest one
    above it, and every name in between that is no logger remembers it. The first fails for loggers
    below a start of the root's name, which never takes over those whose parent is the root. -/
structure Linked (r : Registry) : Prop where
  proper : ∀ k, r.made k → isRoot k = false
  waits : ∀ m, ∀ c ∈ r.waiting m, r.made c ∧ m ∈ ancestors c
  upward : ∀ k p, r.made k → (r.logger k).parent = some p → p ∈ ancestors k
  nearest : ∀ k, r.made k → Separate k → (r.logger k).parent = (ancestors k).find? r.made
  remembered : ∀ k, r.made k → ∀ m ∈ (ancestors k).takeWhile (!r.made ·), k ∈ r.waiting m

/-! ## A new logger -/

def adopt (name : Text) (l : Logger) : Logger :=
  if name.isPrefixOf (l.parent.getD rootName) then l else { l with parent := some name }

theorem adopt_adopt (name : Text) (l : Logger) : adopt name (adopt name l) = adopt name l := by
  unfold adopt
  have hself : name.isPrefixOf name := by simp [Text.isPrefixOf]
  by_cases h : name.isPrefixOf (l.parent.getD rootName)
  · simp [h]
  · simp [h, hself]

structure Adopts (name : Text) (children : List Text) (r r' : Registry) : Prop where
  root : r'.root = r.root
  passed : r'.passed = r.passed
  verdicts : r'.verdicts = r.verdicts
  made : ∀ k, r'.made k = r.made k
  logger : ∀ k, isRoot k = false → r'.logger k = if k ∈ children then adopt name (r.logger k) else r.logger k

theorem adopts_takeOver (name : Text) {c : Text} (hc : r.made c) (hr : isRoot c = false) :
    Adopts name [c] r (takeOver name r c) := by
  have heq : takeOver name r c = r ∧ adopt name (r.logger c) = r.logger c ∨
      takeOver name r c = r.setLogger c (adopt name (r.logger c)) := by
    by_cases hp : name.isPrefixOf ((r.logger c).parent.getD rootName)
    · exact .inl ⟨by simp [takeOver, hp], by simp [adopt, hp]⟩
    · exact .inr (by simp [takeOver, adopt, hp])
  rcases heq with ⟨h, hl⟩ | h <;> rw [h]
  · refine ⟨rfl, rfl, rfl, fun k => rfl, fun k hk => ?_⟩
    by_cases e : k = c
    · simp [e, hl]
    · simp [e]
  · refine ⟨by simp [setLogger, hr], by simp, by simp, fun k => ?_, fun k hk => ?_⟩
    · rw [made_setLogger]
      by_cases e : k = c
      · simp [e, hc]
      · simp [e]
    · rw [logger_setLogger]
      by_cases e : k = c
      · simp [e, hr]
      · simp [e, hr]

theorem adopts_foldl {children : List Text} (h : ∀ c ∈ children, r.made c ∧ isRoot c = false) :
    Adopts name children r (children.foldl (takeOver name) r) := by
  induction children generalizing r with
  | nil => exact ⟨rfl, rfl, rfl, fun k => rfl, fun k hk => by simp⟩
  | cons c rest ih =>
    obtain ⟨hc, hr⟩ := h c List.mem_cons_self
    have hstep := adopts_takeOver name hc hr
    have hthere : ∀ d ∈ rest, (takeOver name r c).made d ∧ isRoot d = false := by
      intro d hd
      rw [hstep.made]
      exact h d (List.mem_cons_of_mem _ hd)
    have hrest := ih hthere
    refine ⟨hrest.root.trans hstep.root, hrest.passed.trans hstep.passed, hrest.verdicts.trans hstep.verdicts,
      fun k => (hrest.made k).trans (hstep.made k), fun k hk => ?_⟩
    rw [List.foldl_cons, hrest.logger k hk, hstep.logger k hk]
    by_cases e : k = c <;> by_cases hin : k ∈ rest <;> simp [e, hin, adopt_adopt]

/-- The name `a`, which is no logger, remembers the logger `name`. -/
def remember (r : Registry) (name a : Text) : Registry :=
  { r with passed := Table.put a (r.waiting a ++ [name]) r.passed }

theorem findParent_cons (r : Registry) (name a : Text) (rest : List Text) :
    r.findParent name (a :: rest) = if r.made a then (r, some a) else (r.remember name a).findParent name rest :=
  rfl

theorem mem_waiting_remember {c a : Text} :
    c ∈ (r.remember name a).waiting m ↔ c ∈ r.waiting m ∨ c = name ∧ m = a := by
  by_cases e : m = a <;> simp [remember, waiting, Table.lookup_put, e]

/-- Looking for a parent changes only who remembers the new logger. -/
theorem findParent_eq (r : Registry) (name : Text) (above : List Text) :
    ∃ passed, r.findParent name above = ({ r with passed := passed }, above.find? r.made) := by
  induction above generalizing r with
  | nil => exact ⟨r.passed, rfl⟩
  | cons a rest ih =>
    rw [findParent_cons]
    by_cases ha : r.made a
    · exact ⟨r.passed, by rw [if_pos ha, List.find?_cons_of_pos ha]⟩
    · obtain ⟨passed, hp⟩ := ih (r.remember name a)
      refine ⟨passed, ?_⟩
      rw [if_neg ha, List.find?_cons_of_neg ha]
      exact hp

theorem mem_waiting_findParent (r : Registry) (name m c : Text) (above : List Text) :
    c ∈ (r.findParent name above).1.waiting m ↔
      c ∈ r.waiting m ∨ c = name ∧ m ∈ above.takeWhile (!r.made ·) := by
  induction above generalizing r with
  | nil => simp [findParent]
  | cons a rest ih =>
    rw [findParent_cons]
    by_cases ha : r.made a
    · simp [ha]
    · have hstep := ih (r.remember name a)
      rw [mem_waiting_remember] at hstep
      rw [if_neg ha, List.takeWhile_cons_of_pos (by simp [ha]), List.mem_cons]
      refine hstep.trans ?_
      show (_ ∨ c = name ∧ m ∈ rest.takeWhile (!r.made ·)) ↔ _
      tauto

structure Joins (name : Text) (r r' : Registry) : Prop where
  root : r'.root = r.root
  verdicts : r'.verdicts = r.verdicts
  made : ∀ k, r'.made k = (r.made k || k == name)
  self : r'.logger name = .fresh ((ancestors name).find? r.made)
  other : ∀ k, isRoot k = false → k ≠ name →
    r'.logger k = if k ∈ r.waiting name then adopt name (r.logger k) else r.logger k
  waiting : ∀ m c, c ∈ r'.waiting m ↔
    m ≠ name ∧ c ∈ r.waiting m ∨ c = name ∧ m ∈ (ancestors name).takeWhile (!r.made ·)

theorem touch_old (h : isRoot name = true ∨ r.made name = true) : r.touch name = r := by
  unfold touch
  rw [if_pos]
  simpa [made] using h

/-- The steps of making a logger: others are taken over, a parent is found, the logger is put there. -/
theorem touch_eq (h : r.Linked) (hr : isRoot name = false) (hn : r.made name = false) :
    ∃ s : Registry, Adopts name (r.waiting name) r { s with passed := r.passed } ∧
      r.touch name = s.setLogger name (.fresh ((ancestors name).find? r.made)) ∧
      ∀ m c, c ∈ s.waiting m ↔
        m ≠ name ∧ c ∈ r.waiting m ∨ c = name ∧ m ∈ (ancestors name).takeWhile (!r.made ·) := by
  have hfold : Adopts name (r.waiting name) r ((r.waiting name).foldl (takeOver name) r) :=
    adopts_foldl fun c hc => ⟨(h.waits _ c hc).1, h.proper c (h.waits _ c hc).1⟩
  generalize hs : (r.waiting name).foldl (takeOver name) r = s at hfold
  have hmade : ({ s with passed := Table.erase name s.passed } : Registry).made = r.made := funext hfold.made
  obtain ⟨passed, hp⟩ := findParent_eq { s with passed := Table.erase name s.passed } name (ancestors name)
  have hw := fun m c => mem_waiting_findParent { s with passed := Table.erase name s.passed } name m c (ancestors name)
  rw [hmade] at hp hw
  rw [hp] at hw
  refine ⟨{ s with passed := passed }, ?_, ?_, ?_⟩
  · rw [← hfold.passed]
    exact hfold
  · have hlook : (r.loggers.lookup name).isSome = false := hn
    unfold touch
    rw [if_neg (by simp [hr, hlook])]
    unfold waiting at hs
    dsimp only
    rw [hs, hp]
  · intro m c
    refine (hw m c).trans (or_congr_left ?_)
    by_cases e : m = name <;> simp [waiting, Table.lookup_erase, hfold.passed, e]

theorem touch_new (h : r.Linked) (hr : isRoot name = false) (hn : r.made name = false) :
    Joins name r (r.touch name) := by
  obtain ⟨s, hadopt, htouch, hwait⟩ := touch_eq h hr hn
  rw [htouch]
  refine ⟨?_, ?_, ?_, ?_, ?_, ?_⟩
  · simpa [setLogger, hr] using hadopt.root
  · simpa using hadopt.verdicts
  · intro k
    rw [made_setLogger, hr]
    exact congrArg (· || k == name) (hadopt.made k)
  · simp [logger_setLogger, hr]
  · intro k hk hne
    rw [logger_setLogger, if_neg (by simp [hr, hne]), ← hadopt.logger k hk]
    rfl
  · intro m c
    rw [← hwait]
    simp [waiting]

/-- Making a logger: it is there, or it joins the others. -/
theorem touch_cases (h : r.Linked) (name : Text) :
    (isRoot name = true ∨ r.made name = true) ∧ r.touch name = r ∨
      isRoot name = false ∧ r.made name = false ∧ Joins name r (r.touch name) := by
  by_cases hold : isRoot name = true ∨ r.made name = true
  · exact .inl ⟨hold, touch_old hold⟩
  · have hr : isRoot name = false := by simpa using (not_or.mp hold).1
    have hn : r.made name = false := by simpa using (not_or.mp hold).2
    exact .inr ⟨hr, hn, touch_new h hr hn⟩

/-! ## The nearest logger above, when one more name is a logger -/

theorem find?_or_eq (q : Text → Bool) (a : Text) (xs : List Text) :
    xs.find? (fun x => q x || x == a) = if a ∈ xs.takeWhile (!q ·) then some a else xs.find? q := by
  induction xs with
  | nil => simp
  | cons x rest ih =>
    by_cases hq : q x
    · simp [hq]
    · rw [List.takeWhile_cons_of_pos (by simp [hq]), List.find?_cons_of_neg hq]
      by_cases e : x = a
      · simp [e]
      · simp [hq, e, Ne.symm e, ih]

theorem takeWhile_or_subset (q : Text → Bool) (a : Text) (xs : List Text) :
    xs.takeWhile (fun x => !(q x || x == a)) ⊆ xs.takeWhile (!q ·) := by
  induction xs with
  | nil => simp
  | cons x rest ih =>
    by_cases hq : q x
    · simp [hq]
    · by_cases e : x = a
      · simp [e]
      · rw [List.takeWhile_cons_of_pos (by simp [hq, e]), List.takeWhile_cons_of_pos (by simp [hq])]
        exact List.cons_subset_cons _ ih

/-- Names come longest first: a name that is no logger is longer than the nearest logger, or the
    nearest logger comes before it and is longer. -/
theorem nearest_cases {q : Text → Bool} {xs : List Text} (hs : xs.Pairwise fun a b => b.length < a.length)
    (hm : m ∈ xs) (hq : q m = false) :
    (m ∈ xs.takeWhile (!q ·) ∧ ∀ p, xs.find? q = some p → p.length < m.length) ∨
      m ∉ xs.takeWhile (!q ·) ∧ ∃ p, xs.find? q = some p ∧ m.length < p.length := by
  induction xs with
  | nil => simp at hm
  | cons x rest ih =>
    obtain ⟨hx, hs⟩ := List.pairwise_cons.mp hs
    by_cases hqx : q x
    · have hne : m ≠ x := by
        rintro rfl
        simp [hq] at hqx
      have hin : m ∈ rest := (List.mem_cons.mp hm).resolve_left hne
      exact .inr ⟨by simp [hqx], x, by simp [hqx], hx m hin⟩
    · rw [List.find?_cons_of_neg hqx, List.takeWhile_cons_of_pos (by simp [hqx])]
      rcases List.mem_cons.mp hm with rfl | hin
      · exact .inl ⟨List.mem_cons_self, fun p hp => hx p (List.mem_of_find?_eq_some hp)⟩
      · rcases ih hs hin with ⟨hw, hp⟩ | ⟨hw, p, hp, hlt⟩
        · exact .inl ⟨List.mem_cons_of_mem _ hw, hp⟩
        · refine .inr ⟨?_, p, hp, hlt⟩
          have hne : m ≠ x := by
            rintro rfl
            exact absurd (hx p (List.mem_of_find?_eq_some hp)) (by omega)
          simp [hne, hw]

/-- A logger that passed the new one's name by gets it as its parent exactly if no other logger is
    in between. -/
theorem parent_adopt (hs : Separate k) (hr : isRoot name = false) (hn : r.made name = false)
    (hin : name ∈ ancestors k) (hp : (r.logger k).parent = (ancestors k).find? r.made) :
    (adopt name (r.logger k)).parent =
      if name ∈ (ancestors k).takeWhile (!r.made ·) then some name else (ancestors k).find? r.made := by
  have hcut := mem_cuts_of_mem_ancestors hin
  unfold adopt
  rw [hp]
  rcases nearest_cases (pairwise_ancestors k) hin hn with ⟨hw, hshort⟩ | ⟨hw, p, hfind, hlt⟩
  · rw [if_pos hw]
    have hno : ¬ name.isPrefixOf (((ancestors k).find? r.made).getD rootName) = true := by
      cases hfind : (ancestors k).find? r.made with
      | none =>
        intro hpre
        exact absurd (hs name hcut hpre) (by simp [hr])
      | some p =>
        have hpc := mem_cuts_of_mem_ancestors (List.mem_of_find?_eq_some hfind)
        have hlt := hshort p hfind
        rw [Option.getD_some, isPrefixOf_iff_of_cuts hcut hpc (by omega)]
        omega
    rw [if_neg hno]
  · rw [if_neg hw]
    have hpc := mem_cuts_of_mem_ancestors (List.mem_of_find?_eq_some hfind)
    rw [hfind, Option.getD_some, if_pos ((isPrefixOf_iff_of_cuts hcut hpc (by omega)).mpr hlt), hp, hfind]

namespace Linked

theorem nearest_touch (h : r.Linked) {r' : Registry} (hj : Joins name r r') (hr : isRoot name = false)
    (hn : r.made name = false) (hk : r'.made k) (hs : Separate k) :
    (r'.logger k).parent = (ancestors k).find? r'.made := by
  have hmade : r'.made = fun x => r.made x || x == name := funext hj.made
  rw [hmade, find?_or_eq]
  by_cases e : k = name
  · subst e
    have hself : k ∉ (ancestors k).takeWhile (!r.made ·) := fun hin =>
      absurd (length_lt_of_mem_cuts (mem_cuts_of_mem_ancestors ((List.takeWhile_sublist _).subset hin))) (lt_irrefl _)
    rw [hj.self, if_neg hself]
    rfl
  · have hold : r.made k := by
      have := hj.made k
      simpa [e, hk] using this.symm
    have hp := h.nearest k hold hs
    rw [hj.other k (h.proper k hold) e]
    by_cases hin : k ∈ r.waiting name
    · rw [if_pos hin]
      exact parent_adopt hs hr hn (h.waits name k hin).2 hp
    · -- Nothing that passed the name by is left out, so a nearer logger was there.
      rw [if_neg hin, if_neg (fun hw => hin (h.remembered k hold name hw)), hp]

protected theorem touch (h : r.Linked) (name : Text) : (r.touch name).Linked := by
  rcases touch_cases h name with ⟨-, hsame⟩ | ⟨hr, hn, hj⟩
  · rw [hsame]
    exact h
  have hmade : ∀ k, (r.touch name).made k = true ↔ r.made k = true ∨ k = name := by
    intro k
    rw [hj.made]
    simp
  refine ⟨?_, ?_, ?_, fun k hk hs => h.nearest_touch hj hr hn hk hs, ?_⟩
  · intro k hk
    rcases (hmade k).mp hk with hk | rfl
    · exact h.proper k hk
    · exact hr
  · intro m c hc
    rcases (hj.waiting m c).mp hc with ⟨-, hc⟩ | ⟨rfl, hm⟩
    · exact ⟨(hmade c).mpr (.inl (h.waits m c hc).1), (h.waits m c hc).2⟩
    · exact ⟨(hmade c).mpr (.inr rfl), (List.takeWhile_sublist _).subset hm⟩
  · intro k p hk hp
    by_cases e : k = name
    · subst e
      rw [hj.self] at hp
      exact List.mem_of_find?_eq_some hp
    · have hk := ((hmade k).mp hk).resolve_right e
      rw [hj.other k (h.proper k hk) e] at hp
      split at hp
      · -- It keeps its parent, or gets the new logger, whose name it passed by.
        rename_i hin
        unfold adopt at hp
        split at hp
        · exact h.upward k p hk hp
        · obtain rfl : name = p := by simpa using hp
          exact (h.waits name k hin).2
      · exact h.upward k p hk hp
  · intro k hk m hm
    have hne : m ≠ name := by
      rintro rfl
      have := List.mem_takeWhile_imp hm
      simp [hj.made] at this
    have hpassed : m ∈ (ancestors k).takeWhile (!r.made ·) := by
      simp only [hj.made] at hm
      exact takeWhile_or_subset _ _ _ hm
    rw [hj.waiting]
    rcases (hmade k).mp hk with hk | rfl
    · exact .inl ⟨hne, h.remembered k hk m hpassed⟩
    · exact .inr ⟨rfl, hpassed⟩

/-- Only which loggers are there, who is remembered and the parents matter. -/
theorem of_parents (h : r.Linked) {r' : Registry} (hmade : r'.made = r.made) (hwait : r'.waiting = r.waiting)
    (hp : ∀ k, isRoot k = false → (r'.logger k).parent = (r.logger k).parent) : r'.Linked := by
  refine ⟨?_, ?_, ?_, ?_, ?_⟩
  · rw [hmade]
    exact h.proper
  · rw [hmade, hwait]
    exact h.waits
  · intro k p hk hparent
    rw [hmade] at hk
    exact h.upward k p hk (hp k (h.proper k hk) ▸ hparent)
  · intro k hk hs
    rw [hmade] at hk ⊢
    rw [hp k (h.proper k hk)]
    exact h.nearest k hk hs
  · rw [hmade, hwait]
    exact h.remembered

protected theorem update (h : r.Linked) (name : Text) {f : Logger → Logger} (hf : ∀ l, (f l).parent = l.parent) :
    (r.update name f).Linked := by
  have hthere : isRoot name = true ∨ (r.touch name).made name = true := by
    rcases touch_cases h name with ⟨hold, hsame⟩ | ⟨-, -, hj⟩
    · rw [hsame]
      exact hold
    · exact .inr (by simp [hj.made])
  refine (h.touch name).of_parents ?_ ?_ ?_
  · funext k
    rw [update, made_setLogger]
    rcases hthere with hr | hm
    · simp [hr]
    · by_cases e : k = name <;> simp [e, hm]
  · funext m
    simp [update, waiting]
  · intro k hk
    rw [update, logger_setLogger]
    split
    · rename_i hsame
      obtain rfl : k = name := by
        rcases (Bool.or_eq_true _ _).mp hsame with hroot | hname
        · simp [hk] at hroot
        · exact eq_of_beq (Bool.and_eq_true_iff.mp hname).2
      exact hf _
    · rfl

/-- Making a logger changes no logger but in its parent. -/
theorem logger_touch (h : r.Linked) (name k : Text) :
    ∃ parent, (r.touch name).logger k = { r.logger k with parent := parent } := by
  rcases touch_cases h name with ⟨-, hsame⟩ | ⟨hr, hn, hj⟩
  · exact ⟨_, by rw [hsame]⟩
  by_cases hk : isRoot k = true
  · exact ⟨_, by rw [logger_of_root hk, logger_of_root hk, hj.root]⟩
  have hk : isRoot k = false := by simpa using hk
  by_cases e : k = name
  · subst e
    exact ⟨_, by rw [hj.self, logger_of_not_made hr hn]; rfl⟩
  · rw [hj.other k hk e]
    split
    · unfold adopt
      split
      · exact ⟨_, rfl⟩
      · exact ⟨_, rfl⟩
    · exact ⟨_, rfl⟩

theorem verdicts_touch (h : r.Linked) (name : Text) : (r.touch name).verdicts = r.verdicts := by
  rcases touch_cases h name with ⟨-, hsame⟩ | ⟨-, -, hj⟩
  · rw [hsame]
  · exact hj.verdicts

end Linked

/-! ## The way up from a logger -/

theorem logger_congr (r : Registry) (h : canonical k = canonical name) : r.logger k = r.logger name := by
  rcases (Bool.or_eq_true _ _).mp (canonical_eq_iff.mp h) with hroot | hname
  · obtain ⟨hn, hk⟩ := Bool.and_eq_true_iff.mp hroot
    rw [logger_of_root hn, logger_of_root hk]
  · rw [eq_of_beq (Bool.and_eq_true_iff.mp hname).2]

theorem logger_update (r : Registry) (name k : Text) (f : Logger → Logger) :
    (r.update name f).logger k =
      if canonical k = canonical name then f ((r.touch name).logger k) else (r.touch name).logger k := by
  rw [update, logger_setLogger]
  by_cases h : canonical k = canonical name
  · rw [if_pos (canonical_eq_iff.mp h), if_pos h, logger_congr _ h]
  · rw [if_neg (fun hc => h (canonical_eq_iff.mpr hc)), if_neg h]

/-- The names of the loggers from a name upwards, as `chainFrom` meets them. -/
def routeFrom (r : Registry) : Nat → Text → List Text
  | 0, _ => [rootName]
  | n + 1, name =>
    if isRoot name then [rootName]
    else
      match (r.logger name).parent with
      | none => [name, rootName]
      | some above => name :: r.routeFrom n above

def route (r : Registry) (name : Text) : List Text := r.routeFrom name.length name

theorem chainFrom_eq (r : Registry) (n : Nat) (name : Text) :
    r.chainFrom n name = (r.routeFrom n name).map r.logger := by
  induction n generalizing name with
  | zero => simp [chainFrom, routeFrom, logger, isRoot_rootName]
  | succ n ih =>
    have hroot : r.logger rootName = r.root := logger_of_root isRoot_rootName
    unfold chainFrom routeFrom
    by_cases hr : isRoot name
    · simp [hr, hroot]
    · simp only [hr, if_false, Bool.false_eq_true]
      cases (r.logger name).parent with
      | none => simp [hroot]
      | some p => simp [ih]

theorem rootName_mem_routeFrom (r : Registry) (n : Nat) (name : Text) : rootName ∈ r.routeFrom n name := by
  induction n generalizing name with
  | zero => simp [routeFrom]
  | succ n ih =>
    unfold routeFrom
    by_cases hr : isRoot name
    · simp [hr]
    · simp only [hr, if_false, Bool.false_eq_true]
      cases (r.logger name).parent with
      | none => simp
      | some p => exact List.mem_cons_of_mem _ (ih p)

theorem self_mem_routeFrom (r : Registry) {n : Nat} (hr : isRoot name = false) (hn : name.length ≤ n) :
    name ∈ r.routeFrom n name := by
  cases n with
  | zero =>
    obtain ⟨codes⟩ := name
    obtain rfl : codes = [] := List.length_eq_zero_iff.mp (Nat.le_zero.mp hn)
    exact absurd hr (by decide)
  | succ n =>
    unfold routeFrom
    simp only [hr, if_false, Bool.false_eq_true]
    cases (r.logger name).parent with
    | none => simp
    | some p => simp

theorem canonical_mem_route (r : Registry) (name : Text) : canonical name ∈ r.route name := by
  by_cases hr : isRoot name
  · rw [canonical, if_pos hr]
    exact rootName_mem_routeFrom r _ _
  · rw [canonical, if_neg hr]
    exact self_mem_routeFrom r (by simpa using hr) (Nat.le_refl _)

namespace Linked

theorem mem_cuts_of_parent (h : r.Linked) (hr : isRoot k = false) (hp : (r.logger k).parent = some p) : p ∈ cuts k := by
  by_cases hk : r.made k
  · exact mem_cuts_of_mem_ancestors (h.upward k p hk hp)
  · rw [logger_of_not_made hr (by simpa using hk)] at hp
    simp [Logger.fresh] at hp

/-- A record goes to its own logger and to loggers above it only. -/
theorem mem_routeFrom (h : r.Linked) (n : Nat) (name : Text) (hb : b ∈ r.routeFrom n name) :
    b = canonical name ∨ b ∈ above name := by
  induction n generalizing name with
  | zero =>
    obtain rfl : b = rootName := by simpa [routeFrom] using hb
    by_cases hr : isRoot name
    · exact .inl (by simp [canonical, hr])
    · exact .inr (mem_above_of_root (by simpa using hr))
  | succ n ih =>
    unfold routeFrom at hb
    by_cases hr : isRoot name
    · exact .inl (by simpa [canonical, hr] using hb)
    · have hr : isRoot name = false := by simpa using hr
      simp only [hr, if_false, Bool.false_eq_true] at hb
      cases hp : (r.logger name).parent with
      | none =>
        rw [hp] at hb
        rcases List.mem_cons.mp hb with rfl | hb
        · exact .inl (by simp [canonical, hr])
        · obtain rfl := List.mem_singleton.mp hb
          exact .inr (mem_above_of_root hr)
      | some p =>
        rw [hp] at hb
        have hcut := h.mem_cuts_of_parent hr hp
        rcases List.mem_cons.mp hb with rfl | hb
        · exact .inl (by simp [canonical, hr])
        · rcases ih p hb with rfl | hb
          · exact .inr (canonical_mem_above hr hcut)
          · exact .inr (mem_above_trans hr hcut hb)

theorem canonical_of_mem_route (h : r.Linked) (hb : b ∈ r.route name) : canonical b = b := by
  rcases h.mem_routeFrom _ _ hb with rfl | hb
  · exact canonical_canonical name
  · exact canonical_of_mem_above hb

/-- Every step of the way leads upwards. -/
theorem pairwise_routeFrom (h : r.Linked) (n : Nat) (name : Text) :
    (r.routeFrom n name).Pairwise fun a b => b ∈ above a := by
  induction n generalizing name with
  | zero => exact List.pairwise_singleton _ _
  | succ n ih =>
    unfold routeFrom
    by_cases hr : isRoot name
    · simp [hr]
    · have hr : isRoot name = false := by simpa using hr
      simp only [hr, if_false, Bool.false_eq_true]
      cases hp : (r.logger name).parent with
      | none => simp [mem_above_of_root hr]
      | some p =>
        have hcut := h.mem_cuts_of_parent hr hp
        refine List.pairwise_cons.mpr ⟨fun b hb => ?_, ih p⟩
        rcases h.mem_routeFrom n p hb with rfl | hb
        · exact canonical_mem_above hr hcut
        · exact mem_above_trans hr hcut hb

end Linked

/-- Every logger above a plain name is on the way up, however late it came. -/
theorem Linked.mem_routeFrom_of_mem_cuts (h : r.Linked) {n : Nat} (hn : name.length ≤ n) (hp : Plain name)
    (hmade : r.made name) (hb : b ∈ cuts name) (hbm : r.made b) : b ∈ r.routeFrom n name := by
  induction n generalizing name with
  | zero => exact absurd (length_lt_of_mem_cuts hb) (by omega)
  | succ n ih =>
    have hfound : ((cuts name).find? r.made).isSome := List.find?_isSome.mpr ⟨b, hb, hbm⟩
    obtain ⟨p, hfind⟩ := Option.isSome_iff_exists.mp hfound
    have hparent : (r.logger name).parent = some p := by
      rw [h.nearest name hmade hp.2, ancestors_eq_cuts hp.1, hfind]
    have hcut : p ∈ cuts name := List.mem_of_find?_eq_some hfind
    have hpm : r.made p := List.find?_some hfind
    have hlen : p.length ≤ n := by
      have := length_lt_of_mem_cuts hcut
      omega
    unfold routeFrom
    simp only [h.proper name hmade, hparent, if_false, Bool.false_eq_true]
    refine List.mem_cons_of_mem _ ?_
    -- The nearest logger is `b`, or `b` is above it.
    obtain ⟨-, before, after, heq, hbefore⟩ := List.find?_eq_some_iff_append.mp hfind
    have hsorted := pairwise_cutsFrom name.codes.reverse
    have hin : b ∈ p :: after := by
      rw [heq] at hb
      refine (List.mem_append.mp hb).resolve_left fun hb => ?_
      simpa [hbm] using hbefore b hb
    rcases List.mem_cons.mp hin with rfl | hin
    · exact self_mem_routeFrom r (h.proper b hbm) hlen
    · have hlt : b.length < p.length := by
        have hsorted : (before ++ p :: after).Pairwise fun a b => b.length < a.length := heq ▸ hsorted
        exact (List.pairwise_cons.mp (List.pairwise_append.mp hsorted).2.1).1 b hin
      exact ih hlen (hp.of_mem_cuts hcut) hpm (mem_cuts_of_length_lt hb hcut hlt)

end JsonnetLocals.Registry
