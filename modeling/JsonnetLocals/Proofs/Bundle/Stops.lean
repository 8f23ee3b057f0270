/-
  JsonnetLocals.Proofs.Bundle.Stops — where a run ends that fails.

  `Run.Stops` says that a computation fails and the scene that it leaves. A run that is refused was
  refused when its inputs were checked, and then nothing was done, or at an input that does not parse
  (`Bundler.stops_processFrom`). What was processed before is what a run over those inputs alone
  processes, since no computation looks at the log (`Run.Blind`); so the disk is the one that such a run
  leaves (`Bundler.run_stops_at_first_fault`).
-/

import JsonnetLocals.Proofs.Bundle.Faithful

namespace JsonnetLocals

open Disk

namespace Run

variable {α β : Type} {s s' : Scene} {e : RunError}

/-! ## Computations that fail -/

/-- The computation fails and leaves a scene. -/
def Stops (x : Run α) (s : Scene) (e : RunError) (s' : Scene) : Prop := x.run.run s = (.error e, s')

theorem stops_bind {x : Run α} {f : α → Run β} :
    (x >>= f).Stops s e s' ↔ x.Stops s e s' ∨ ∃ a s₁, x.Yields s a s₁ ∧ (f a).Stops s₁ e s' := by
  unfold Stops Yields
  rw [ExceptT.run_bind, StateT.run_bind]
  cases hx : x.run.run s with
  | mk r s₁ =>
    cases r with
    | error e' =>
      constructor
      · intro h
        cases h
        exact .inl rfl
      · rintro (h | ⟨a, s₂, h, -⟩)
        · cases h
          rfl
        · cases h
    | ok a =>
      constructor
      · intro h
        exact .inr ⟨a, s₁, rfl, h⟩
      · rintro (h | ⟨a', s₂, h, h'⟩)
        · cases h
        · cases h
          exact h'

theorem stops_note_bind {rs : List Record} {f : Unit → Run β} :
    (note rs >>= f).Stops s e s' ↔ (f ()).Stops { s with log := s.log ++ rs } e s' := Iff.rfl

theorem stops_disk_bind {f : Disk → Run β} : (disk >>= f).Stops s e s' ↔ (f s.disk).Stops s e s' := Iff.rfl

theorem stops_fail {e' : RunError} : (fail e' : Run α).Stops s e s' ↔ e = e' ∧ s' = s := by
  constructor
  · intro h
    cases h
    exact ⟨rfl, rfl⟩
  · rintro ⟨rfl, rfl⟩
    rfl

theorem not_stops_pure {a : α} : ¬ (pure a : Run α).Stops s e s' := by
  intro h
  cases h

theorem stops_result_bind {r : Except RunError α} {f : α → Run β} :
    (((ExceptT.mk (pure r) : Run α) >>= f : Run β)).Stops s e s' ↔
      r = .error e ∧ s' = s ∨ ∃ a, r = .ok a ∧ (f a).Stops s e s' := by
  cases r with
  | error e' =>
    constructor
    · intro h
      cases h
      exact .inl ⟨rfl, rfl⟩
    · rintro (⟨h, rfl⟩ | ⟨a, h, -⟩)
      · cases h
        rfl
      · cases h
  | ok a =>
    constructor
    · intro h
      exact .inr ⟨a, rfl, h⟩
    · rintro (⟨h, -⟩ | ⟨a', h, h'⟩)
      · cases h
      · cases h
        exact h'

/-- A look-up fails with an error of the files, if what was looked up cannot be found. -/
theorem stops_lookUp_bind {r : Except FileError α} {f : α → Run β} :
    (lookUp r >>= f).Stops s e s' ↔ (∃ x, r = .error x ∧ e = .file x ∧ s' = s) ∨ ∃ a, r = .ok a ∧ (f a).Stops s e s' := by
  rw [lookUp, stops_result_bind]
  cases r with
  | error x => simp [Except.mapError, eq_comm]
  | ok a => simp [Except.mapError]

theorem file_of_ensureDir {cwd : Loc} {p : Path} (h : (ensureDir cwd p).Stops s e s') : ∃ x, e = .file x := by
  unfold ensureDir at h
  rw [stops_disk_bind] at h
  generalize s.disk.ensureDir cwd p = made at h
  obtain ⟨d, r⟩ := made
  cases r with
  | error x =>
    cases h
    exact ⟨x, rfl⟩
  | ok => cases h

theorem file_of_write {b : Bundler} {w : Writer} {p : Path} {content : Bytes} {root : Option Path}
    (h : (write b w p content root).Stops s e s') : ∃ x, e = .file x := by
  unfold write at h
  rw [stops_disk_bind] at h
  generalize w.writeFor s.disk b.env p content root b.fileTime b.faults = step at h
  obtain ⟨w', d', log, result⟩ := step
  cases result with
  | error x =>
    cases h
    exact ⟨x, rfl⟩
  | ok written => cases h

/-! ## Computations that do not look at the log -/

/-- What the computation gives, and the disk that it leaves, depend on nothing but the disk. -/
def Blind (x : Run α) : Prop :=
  ∀ s t : Scene, s.disk = t.disk → (x.run.run s).1 = (x.run.run t).1 ∧ (x.run.run s).2.disk = (x.run.run t).2.disk

theorem blind_bind {x : Run α} {f : α → Run β} (hx : x.Blind) (hf : ∀ a, (f a).Blind) : (x >>= f).Blind := by
  intro s t hst
  obtain ⟨hresult, hdisk⟩ := hx s t hst
  rw [ExceptT.run_bind, StateT.run_bind, StateT.run_bind]
  generalize x.run.run s = left at hresult hdisk ⊢
  generalize x.run.run t = right at hresult hdisk ⊢
  obtain ⟨r, s₁⟩ := left
  obtain ⟨r', t₁⟩ := right
  obtain rfl : r = r' := hresult
  cases r with
  | error e => exact ⟨rfl, hdisk⟩
  | ok a => exact hf a s₁ t₁ hdisk

theorem blind_pure (a : α) : (pure a : Run α).Blind := fun _ _ h => ⟨rfl, h⟩

theorem blind_fail (e : RunError) : (fail e : Run α).Blind := fun _ _ h => ⟨rfl, h⟩

theorem blind_result (r : Except RunError α) : Blind (ExceptT.mk (pure r)) := fun _ _ h => ⟨rfl, h⟩

theorem blind_lookUp (r : Except FileError α) : (lookUp r).Blind := blind_result _

theorem blind_note (rs : List Record) : (note rs).Blind := fun _ _ h => ⟨rfl, h⟩

theorem blind_disk : disk.Blind := fun _ _ h => ⟨congrArg Except.ok h, h⟩

theorem blind_write (b : Bundler) (w : Writer) (p : Path) (content : Bytes) (root : Option Path) :
    (write b w p content root).Blind := by
  refine blind_bind blind_disk fun d => ?_
  generalize w.writeFor d b.env p content root b.fileTime b.faults = step
  obtain ⟨w', d', log, result⟩ := step
  refine blind_bind (fun _ _ _ => ⟨rfl, rfl⟩) fun _ => ?_
  cases result with
  | error e => exact blind_fail _
  | ok r => exact blind_pure _

/-- From any scene with the one disk, the computation returns the value and leaves a scene with the other. -/
def Leaves (x : Run α) (d : Disk) (a : α) (d' : Disk) : Prop := ∀ s, s.disk = d → ∃ s', x.Yields s a s' ∧ s'.disk = d'

theorem Blind.leaves {x : Run α} (h : x.Blind) {a : α} (hx : x.Yields s a s') : x.Leaves s.disk a s'.disk := by
  intro t ht
  obtain ⟨hresult, hdisk⟩ := h t s ht
  unfold Yields at hx
  rw [hx] at hresult hdisk
  exact ⟨(x.run.run t).2, Prod.ext hresult rfl, hdisk⟩

theorem leaves_bind {x : Run α} {f : α → Run β} {a : α} {b : β} {d d₁ d' : Disk} (hx : x.Leaves d a d₁)
    (hf : (f a).Leaves d₁ b d') : (x >>= f).Leaves d b d' := by
  intro s hs
  obtain ⟨s₁, hx, hs₁⟩ := hx s hs
  obtain ⟨s', hf, hs'⟩ := hf s₁ hs₁
  exact ⟨s', yields_bind.mpr ⟨a, s₁, hx, hf⟩, hs'⟩

theorem leaves_pure (d : Disk) (a : α) : (pure a : Run α).Leaves d a d := fun s hs => ⟨s, rfl, hs⟩

theorem leaves_lookUp (d : Disk) {r : Except FileError α} {a : α} (h : r = .ok a) : (lookUp r).Leaves d a d := by
  subst h
  exact leaves_pure d a

theorem leaves_note (d : Disk) (rs : List Record) : (note rs).Leaves d () d := fun _ hs => ⟨_, rfl, hs⟩

theorem leaves_disk (d : Disk) : disk.Leaves d d d := fun s hs => ⟨s, congrArg (fun d => (Except.ok d, s)) hs, hs⟩

theorem leaves_ensureDir {cwd : Loc} {p : Path} {d d' : Disk} (h : d.ensureDir cwd p = (d', .ok ())) :
    (ensureDir cwd p).Leaves d () d' := by
  rintro s rfl
  refine ⟨{ s with disk := d' }, ?_, rfl⟩
  unfold ensureDir
  rw [yields_disk_bind, h]
  rfl

end Run

/-- The error is about the path, and its message shows it. -/
structure Refusal.Names (r : Refusal) (p : Path) : Prop where
  path : r.path = some p
  message : p.text.codes <:+: r.message.codes

/-- Where the first of the paths stands that is not as asked. -/
structure FirstNot (P : Path → Prop) (ps before : List Path) (p : Path) : Prop where
  stands : ∃ after, ps = before ++ p :: after
  before : ∀ q ∈ before, P q
  fails : ¬ P p

namespace Bundler

variable {b : Bundler} {w : Writer} {p : Path} {ps : List Path} {s s' : Scene} {r : Refusal} {d : Disk}

theorem blind_processFile (b : Bundler) (w : Writer) (p : Path) : (b.processFile w p).Blind := by
  refine Run.blind_bind Run.blind_disk fun d => ?_
  split
  · exact Run.blind_fail _
  · refine Run.blind_bind (Run.blind_note _) fun _ => ?_
    refine Run.blind_bind (Run.blind_note _) fun _ => ?_
    refine Run.blind_bind (Run.blind_result _) fun x => ?_
    refine Run.blind_bind (Run.blind_result _) fun content => ?_
    refine Run.blind_bind (Run.blind_write b w p content b.root) fun ⟨w', written⟩ => ?_
    dsimp only
    split
    · exact Run.blind_bind (Run.blind_note _) fun _ => Run.blind_bind (Run.blind_note _) fun _ => Run.blind_pure _
    · exact Run.blind_bind (Run.blind_note _) fun _ => Run.blind_pure _

theorem blind_processFrom (b : Bundler) (w : Writer) (targets : List (Path × Path)) (ps : List Path) :
    (b.processFrom w targets ps).Blind := by
  induction ps generalizing w targets with
  | nil => exact Run.blind_pure _
  | cons p ps ih =>
    unfold processFrom
    refine Run.blind_bind Run.blind_disk fun d => ?_
    refine Run.blind_bind (Run.blind_lookUp _) fun out => ?_
    refine Run.blind_bind (Run.blind_note _) fun _ => ?_
    refine Run.blind_bind (Run.blind_note _) fun _ => ?_
    refine Run.blind_bind (blind_processFile b w p) fun r => ?_
    exact Run.blind_bind (ih r.1 _) fun _ => Run.blind_pure _

/-! ## Inputs that are taken -/

/-- The input leads to a file that is not denied and not too large. -/
def Accepts (b : Bundler) (d : Disk) (p : Path) : Prop :=
  ∃ data, d.contents b.env.cwd p = .ok data ∧ d.isDenied b.env.cwd p = false ∧
    Reading.isTooLarge b.limit data.length = false

def Parses (b : Bundler) (d : Disk) (p : Path) : Prop :=
  ∃ data tree, d.contents b.env.cwd p = .ok data ∧ parse p.text data = .ok tree

theorem refusal_eq_none_iff : b.refusal d p = none ↔ b.Accepts d p := by
  unfold refusal Accepts
  constructor
  · intro h
    split at h
    · cases h
    · rename_i data hfind
      have hstat := find_eq_some_iff.mp hfind
      split at h
      · cases h
      · rename_i hdenied
        split at h
        · cases h
        · rename_i hlarge
          refine ⟨data.data.toList, ?_, Bool.eq_false_iff.mpr hdenied, Bool.eq_false_iff.mpr hlarge⟩
          rw [contents, hstat]
    · cases h
  · rintro ⟨data, hcontents, hdenied, hlarge⟩
    obtain ⟨l, hl, hfile⟩ := contents_eq_ok_iff.mp hcontents
    have hfind := find_eq_some_iff.mpr (stat_eq_ok_iff.mpr ⟨l, hl, fileAt_eq_some_iff.mp hfile⟩)
    rw [hfind]
    dsimp only [fileOf]
    rw [hdenied, if_neg Bool.false_ne_true]
    exact if_neg (Bool.eq_false_iff.mp hlarge)

theorem names_of_refusal (h : b.refusal d p = some (.refused r)) : r.Names p := by
  have hends (front : Text) : (refuse p (front ++ p.text)).Names p :=
    ⟨rfl, (List.suffix_append front.codes p.text.codes).isInfix⟩
  unfold refusal at h
  split at h
  · cases h
  · split at h
    · cases h
      exact hends _
    · split at h
      · cases h
        have hfront : p.text.codes <:+: ("File too large: " ++ p.text ++ ". Maximum allowed size is " : Text).codes :=
          List.infix_append _ _ _
        exact ⟨rfl, hfront.trans ((List.prefix_append _ _).trans (List.prefix_append _ _)).isInfix⟩
      · cases h
  · cases h
    exact hends _

/-- Inputs that cannot all be taken are refused at the first that cannot. -/
theorem first_of_checkInputs {e : RunError} (h : (b.checkInputs d ps).2 = some e) :
    ∃ before p, FirstNot (b.Accepts d) ps before p ∧ b.refusal d p = some e := by
  induction ps with
  | nil => cases h
  | cons p ps ih =>
    unfold checkInputs at h
    split at h
    · rename_i e' hp
      obtain rfl : e' = e := Option.some.inj h
      refine ⟨[], p, ⟨⟨ps, rfl⟩, List.forall_mem_nil _, ?_⟩, hp⟩
      rw [← refusal_eq_none_iff, hp]
      simp
    · rename_i hp
      obtain ⟨before, q, ⟨⟨after, rfl⟩, hbefore, hfails⟩, hq⟩ := ih h
      refine ⟨p :: before, q, ⟨⟨after, rfl⟩, List.forall_mem_cons.mpr ⟨refusal_eq_none_iff.mp hp, hbefore⟩, hfails⟩, hq⟩

theorem checkInputs_eq_none (h : ∀ p ∈ ps, b.Accepts d p) : (b.checkInputs d ps).2 = none := by
  by_contra hne
  obtain ⟨e, he⟩ := Option.ne_none_iff_exists'.mp hne
  obtain ⟨before, p, ⟨⟨after, rfl⟩, -, hfails⟩, -⟩ := first_of_checkInputs he
  exact hfails (h p (List.mem_append_right _ List.mem_cons_self))

/-! ## Where a run is refused -/

/-- Processing a file is refused only for a reading without a tree, and before anything is written. -/
theorem refused_of_processFile (h : (b.processFile w p).Stops s (.refused r) s') :
    ∃ reading log, Reading.ofFile s.disk b.env.cwd b.limit p = .ok (reading, log) ∧ reading.tree = none ∧
      r = ⟨"Failed to process " ++ reading.path.text, some reading.path, reading.errors⟩ ∧ s'.disk = s.disk := by
  unfold processFile at h
  dsimp only at h
  rw [Run.stops_disk_bind] at h
  split at h
  · rename_i e _
    obtain ⟨he, -⟩ := Run.stops_fail.mp h
    cases e <;> cases he
  · rename_i reading log hread
    rw [Run.stops_note_bind, Run.stops_note_bind, Run.stops_result_bind] at h
    refine ⟨reading, log, hread, ?_⟩
    rcases h with ⟨hrename, rfl⟩ | ⟨x, -, h⟩
    · unfold rename at hrename
      split at hrename
      · rename_i htree
        cases hrename
        exact ⟨htree, rfl, rfl⟩
      · dsimp only at hrename
        split at hrename <;> cases hrename
    · rw [Run.stops_result_bind] at h
      rcases h with ⟨hrender, -⟩ | ⟨content, -, h⟩
      · unfold render at hrender
        split at hrender
        · split at hrender
          · cases hrender
          · split at hrender <;> cases hrender
        · cases hrender
      · rcases Run.stops_bind.mp h with h | ⟨⟨w', written⟩, s₁, -, h⟩
        · obtain ⟨e, he⟩ := Run.file_of_write h
          cases he
        · dsimp only at h
          split at h
          · rw [Run.stops_note_bind, Run.stops_note_bind] at h
            exact absurd h Run.not_stops_pure
          · rw [Run.stops_note_bind] at h
            exact absurd h Run.not_stops_pure

/-- Processing is refused at one file, after those before it were processed. -/
theorem stops_processFrom {targets : List (Path × Path)} (h : (b.processFrom w targets ps).Stops s (.refused r) s') :
    ∃ before p after result s₁ w₁, ps = before ++ p :: after ∧ (b.processFrom w targets before).Yields s result s₁ ∧
      ∃ s₂, s₂.disk = s₁.disk ∧ (b.processFile w₁ p).Stops s₂ (.refused r) s' := by
  induction ps generalizing w targets s with
  | nil => exact absurd h Run.not_stops_pure
  | cons p ps ih =>
    unfold processFrom at h
    dsimp only at h
    rw [Run.stops_disk_bind, Run.stops_lookUp_bind] at h
    obtain ⟨x, -, hx, -⟩ | ⟨out, hout, h⟩ := h
    · cases hx
    rw [Run.stops_note_bind, Run.stops_note_bind] at h
    rcases Run.stops_bind.mp h with h | ⟨⟨w', f⟩, s₁, hfile, h⟩
    · refine ⟨[], p, ps, _, s, w, rfl, Run.yields_pure.mpr ⟨rfl, rfl⟩, _, ?_, h⟩
      rfl
    · rcases Run.stops_bind.mp h with h | ⟨_, _, -, h⟩
      · obtain ⟨before, q, after, result, s₂, w₁, rfl, hbefore, hq⟩ := ih h
        have hcons : ∃ all, (b.processFrom w targets (p :: before)).Yields s all s₂ := by
          unfold processFrom
          dsimp only
          simp only [Run.yields_disk_bind, Run.yields_lookUp_bind, Run.yields_note_bind]
          exact ⟨_, out, hout, Run.yields_bind.mpr ⟨_, _, hfile,
            Run.yields_bind.mpr ⟨_, _, hbefore, Run.yields_pure.mpr ⟨rfl, rfl⟩⟩⟩⟩
        obtain ⟨all, hall⟩ := hcons
        exact ⟨p :: before, q, after, all, s₂, w₁, rfl, hall, hq⟩
      · exact absurd h Run.not_stops_pure

/-- The reading of an input that is taken is that of its bytes. -/
theorem ofFile_of_accepts (h : b.Accepts d p) {source : Bytes} (hc : d.contents b.env.cwd p = .ok source) :
    Reading.ofFile d b.env.cwd b.limit p = (Reading.ofSource p.text source).mapError .literal := by
  obtain ⟨data, hdata, hdenied, hlarge⟩ := h
  obtain rfl : data = source := Except.ok.inj (hdata.symm.trans hc)
  obtain ⟨l, hl, hfile⟩ := contents_eq_ok_iff.mp hc
  have hfind := find_eq_some_iff.mpr (stat_eq_ok_iff.mpr ⟨l, hl, fileAt_eq_some_iff.mp hfile⟩)
  have hrefusal : Reading.refusal d b.env.cwd b.limit p (some (fileOf data)) = none := by
    unfold Reading.refusal
    dsimp only
    rw [hdenied, if_neg Bool.false_ne_true]
    exact if_neg (Bool.eq_false_iff.mp hlarge)
  unfold Reading.ofFile
  rw [hfind]
  dsimp only
  rw [hrefusal, hc]

/-- An input that is taken and does not parse. -/
theorem unparsed_of_processFile (hp : p.Proper) (hin : b.Accepts s.disk p)
    (h : (b.processFile w p).Stops s (.refused r) s') : ¬ b.Parses s.disk p ∧ r.Names p ∧ s'.disk = s.disk := by
  obtain ⟨reading, log, hread, htree, rfl, hdisk⟩ := refused_of_processFile h
  have ⟨data, hcontents, _⟩ := hin
  rw [ofFile_of_accepts hin hcontents, Reading.ofSource, Path.ofText_text hp] at hread
  split at hread
  · cases hread
    cases htree
  · rename_i e hparse
    refine ⟨?_, ?_, hdisk⟩
    · rintro ⟨data', tree, hcontents', hparse'⟩
      obtain rfl := Except.ok.inj (hcontents.symm.trans hcontents')
      rw [hparse] at hparse'
      cases hparse'
    · split at hread
      · cases hread
        exact ⟨rfl, (List.suffix_append _ _).isInfix⟩
      · cases hread

/-! ## What is left to read -/

theorem Processed.denied_eq {f : FileResult} {w' : Writer} {d' : Disk} {source content : Bytes} {tree : Node} {x : Renamed}
    {out : Written} (h : Processed b w d p f w' d' source tree x content out) : d'.denied = d.denied := by
  rw [← h.disk]
  exact Writer.denied_write w d b.env _

theorem Chain.denied_eq {fs : List FileResult} {d' : Disk} (h : Chain b w d ps fs d') : d'.denied = d.denied := by
  induction h with
  | nil => rfl
  | cons hfile _ ih => exact ih.trans hfile.denied_eq

theorem Accepts.of_contents {d' : Disk} {data : Bytes} (h : b.Accepts d p) (hdenied : d'.denied = d.denied)
    (hd : d.contents b.env.cwd p = .ok data) (hd' : d'.contents b.env.cwd p = .ok data) : b.Accepts d' p := by
  obtain ⟨data', hdata', haccess, hlarge⟩ := h
  obtain rfl := Except.ok.inj (hd.symm.trans hdata')
  refine ⟨data, hd', ?_, hlarge⟩
  unfold isDenied at haccess ⊢
  rwa [hdenied]

theorem Parses.of_contents {d' : Disk} {data : Bytes} (h : b.Parses d p) (hd : d.contents b.env.cwd p = .ok data)
    (hd' : d'.contents b.env.cwd p = .ok data) : b.Parses d' p := by
  obtain ⟨data', tree, hdata', hparse⟩ := h
  obtain rfl := Except.ok.inj (hd.symm.trans hdata')
  exact ⟨data, tree, hd', hparse⟩

/-- Inputs that were processed, and were no targets, parse as they were at the start. -/
theorem Chain.parses (henv : b.env.Proper) {fs : List FileResult} {d' : Disk} (h : Chain b w d ps fs d')
    (hdir : w.dir.Settled) (hps : ∀ p ∈ ps, p.Proper) (hd : d.Tree)
    (hreads : ∀ p ∈ ps, ∃ data, d.contents b.env.cwd p = .ok data)
    (hapart : ∀ p ∈ ps, ∀ q ∈ ps, b.goal w p ≠ q.place b.env.cwd) : ∀ p ∈ ps, b.Parses d p := by
  induction h with
  | nil => exact List.forall_mem_nil _
  | @cons w w' d d₁ d' p ps f fs source tree x content out hfile _ ih =>
    rw [List.forall_mem_cons] at hps
    have hsame := hfile.dir_eq henv hdir hps.1
    have hmem {q : Path} (hq : q ∈ ps) : q ∈ p :: ps := List.mem_cons_of_mem p hq
    have hkept {q : Path} {data : Bytes} (hq : q ∈ ps) (hdata : d.contents b.env.cwd q = .ok data) :
        d₁.contents b.env.cwd q = .ok data :=
      hfile.contents_kept henv hdir hps.1 hd hdata fun _ => (hapart p List.mem_cons_self q (hmem hq)).symm
    have hrest : ∀ q ∈ ps, b.Parses d₁ q := by
      refine ih (hsame ▸ hdir) hps.2 (hfile.tree_after henv hdir hps.1 hd) ?_ ?_
      · intro q hq
        obtain ⟨data, hdata⟩ := hreads q (hmem hq)
        exact ⟨data, hkept hq hdata⟩
      · rw [goal_congr hsame]
        exact fun q hq q' hq' => hapart q (hmem hq) q' (hmem hq')
    refine List.forall_mem_cons.mpr ⟨⟨source, tree, hfile.read, hfile.parsed⟩, fun q hq => ?_⟩
    obtain ⟨data, hdata⟩ := hreads q (hmem hq)
    exact (hrest q hq).of_contents (hkept hq hdata) hdata

/-! ## Runs -/

/-- A run that is refused was refused before anything was done, or while its files were processed. -/
theorem stops_of_run {scene : Scene} (hne : ps ≠ []) (h : b.run ps d = (scene, .error (.refused r))) :
    (b.checkInputs d ps).2 = some (.refused r) ∧ scene.disk = d ∨
      (b.checkInputs d ps).2 = none ∧
        ∃ w s₁, Writer.makeOn d b.env (Path.ofText b.config.outputDir) b.config.conflictStrategy = .ok w ∧
          d.ensureDir b.env.cwd w.dir = (s₁.disk, .ok ()) ∧ (b.processFrom w [] ps).Stops s₁ (.refused r) scene := by
  have hstops : (b.process ps).Stops ⟨d, [], []⟩ (.refused r) scene := by
    unfold run at h
    obtain ⟨rfl, hresult⟩ := Prod.mk.inj h
    exact Prod.ext hresult rfl
  unfold process at hstops
  dsimp only at hstops
  rw [if_neg (by simpa using hne), Run.stops_note_bind, Run.stops_disk_bind, Run.stops_note_bind] at hstops
  cases hcheck : (b.checkInputs d ps).2 with
  | some e =>
    rw [hcheck] at hstops
    obtain ⟨rfl, rfl⟩ := Run.stops_fail.mp hstops
    exact .inl ⟨rfl, rfl⟩
  | none =>
    rw [hcheck] at hstops
    dsimp only at hstops
    refine .inr ⟨rfl, ?_⟩
    rw [Run.stops_disk_bind, Run.stops_lookUp_bind] at hstops
    obtain ⟨x, -, hx, -⟩ | ⟨w, hw, hstops⟩ := hstops
    · cases hx
    rw [Run.stops_note_bind] at hstops
    rcases Run.stops_bind.mp hstops with hdir | ⟨_, s₁, hdir, hstops⟩
    · obtain ⟨e, he⟩ := Run.file_of_ensureDir hdir
      cases he
    · refine ⟨w, s₁, Run.mapError_eq_ok_iff.mp hw, Run.disk_of_ensureDir hdir, ?_⟩
      rcases Run.stops_bind.mp hstops with hfiles | ⟨_, _, -, hend⟩
      · exact hfiles
      · rw [Run.stops_note_bind] at hend
        exact absurd hend Run.not_stops_pure

theorem run_of_yields {scene : Scene} {result : BundleResult} (h : (b.process ps).Yields ⟨d, [], []⟩ result scene) :
    b.run ps d = (scene, .ok result) := by
  unfold run
  unfold Run.Yields at h
  rw [h]

/-- A run whose inputs are taken, whose output directory is made and whose files are processed returns. -/
theorem run_of_processFrom {s₁ : Scene} {result : BundleResult} (hne : ps ≠ []) (hps : ∀ p ∈ ps, b.Accepts d p)
    (hw : Writer.makeOn d b.env (Path.ofText b.config.outputDir) b.config.conflictStrategy = .ok w)
    (hdir : d.ensureDir b.env.cwd w.dir = (s₁.disk, .ok ())) (h : (b.processFrom w [] ps).Yields s₁ result s') :
    ∃ scene result', b.run ps d = (scene, .ok result') ∧ scene.disk = s'.disk := by
  have hleaves : (b.process ps).Leaves d ⟨result.files, (b.checkInputs d ps).1 ++ result.warnings⟩ s'.disk := by
    unfold process
    dsimp only
    rw [if_neg (by simpa using hne)]
    refine Run.leaves_bind (Run.leaves_note d _) (Run.leaves_bind (Run.leaves_disk d) ?_)
    refine Run.leaves_bind (Run.leaves_note d _) ?_
    rw [checkInputs_eq_none hps]
    refine Run.leaves_bind (Run.leaves_disk d) (Run.leaves_bind (Run.leaves_lookUp d (Run.mapError_eq_ok_iff.mpr hw)) ?_)
    refine Run.leaves_bind (Run.leaves_note d _) (Run.leaves_bind (Run.leaves_ensureDir hdir) ?_)
    refine Run.leaves_bind ((blind_processFrom b w [] ps).leaves h) ?_
    exact Run.leaves_bind (Run.leaves_note _ _) (Run.leaves_pure _ _)
  obtain ⟨scene, hyields, hdisk⟩ := hleaves ⟨d, [], []⟩ rfl
  exact ⟨scene, _, run_of_yields hyields, hdisk⟩

theorem settled_of_make (henv : b.env.Proper)
    (hw : Writer.make b.env (Path.ofText b.config.outputDir) b.config.conflictStrategy = .ok w) :
    w.dir.Settled ∧ w.strategy = b.config.conflictStrategy := by
  obtain ⟨hdir, hstart⟩ := Writer.eq_start_of_make henv (Path.proper_ofText _) hw
  exact ⟨hdir, by rw [hstart]; rfl⟩

/-- While no target is an input, processing is refused for the first input that does not parse, and leaves what
    processing the inputs before it leaves. -/
theorem first_unparsed (henv : b.env.Proper) (hd : d.Tree) (hps : ∀ p ∈ ps, p.Proper) (hall : ∀ p ∈ ps, b.Accepts d p)
    (hdir : w.dir.Settled) (hmake : d.ensureDir b.env.cwd w.dir = (s.disk, .ok ()))
    (hapart : ∀ p ∈ ps, ∀ q ∈ ps, b.goal w p ≠ q.place b.env.cwd)
    (hstops : (b.processFrom w [] ps).Stops s (.refused r) s') :
    ∃ before p result s₁, FirstNot (b.Parses d) ps before p ∧ r.Names p ∧
      (b.processFrom w [] before).Yields s result s₁ ∧ s'.disk = s₁.disk := by
  have hmade := made_ensureDir hdir hmake
  obtain ⟨before, p, after, result, s₁, w₁, rfl, hbefore, s₂, hs₂, hfile⟩ := stops_processFrom hstops
  have hmem {q : Path} (hq : q ∈ before) : q ∈ before ++ p :: after := List.mem_append_left _ hq
  have hp : p ∈ before ++ p :: after := List.mem_append_right _ List.mem_cons_self
  have hchain := chain_of_processFrom hbefore
  have hread {q : Path} (hq : q ∈ before ++ p :: after) : ∃ data, d.contents b.env.cwd q = .ok data ∧
      s.disk.contents b.env.cwd q = .ok data ∧ s₂.disk.contents b.env.cwd q = .ok data := by
    obtain ⟨data, hdata, -⟩ := hall q hq
    have hstart := hmade.way.keeps.contents hdata
    refine ⟨data, hdata, hstart, ?_⟩
    rw [hs₂]
    refine hchain.contents_kept henv hdir (fun q hq => hps q (hmem hq)) (hmade.tree hd) hstart ?_
    exact fun _ q' hq' => (hapart q' (hmem hq') q hq).symm
  obtain ⟨data, hdata, -, hlast⟩ := hread hp
  have hdenied : s₂.disk.denied = d.denied := by
    rw [hs₂, hchain.denied_eq, ← denied_ensureDir d b.env.cwd w.dir, hmake]
  have haccepts : b.Accepts s₂.disk p := (hall p hp).of_contents hdenied hdata hlast
  obtain ⟨hunparsed, hnames, hdisk⟩ := unparsed_of_processFile (hps p hp) haccepts hfile
  refine ⟨before, p, result, s₁, ⟨⟨after, rfl⟩, fun q hq => ?_, fun hparses => ?_⟩, hnames, hbefore, hdisk.trans hs₂⟩
  · have hparses : b.Parses s.disk q := by
      refine hchain.parses henv hdir (fun q hq => hps q (hmem hq)) (hmade.tree hd) (fun q hq => ?_)
        (fun q hq q' hq' => hapart q (hmem hq) q' (hmem hq')) q hq
      obtain ⟨data, -, hstart, -⟩ := hread (hmem hq)
      exact ⟨data, hstart⟩
    obtain ⟨data, hdata, hstart, -⟩ := hread (hmem hq)
    exact hparses.of_contents hstart hdata
  · exact hunparsed (hparses.of_contents hdata hlast)

/-- A run that is refused stops cleanly at the first fault. If there is an input that cannot be taken, it is refused for
    the first of them and nothing is done. Otherwise, if no target is an input, it is refused for the first input that
    does not parse, and leaves the disk that a run over the inputs before that one leaves; before the first input this is
    the disk with the output directory. -/
theorem run_stops_at_first_fault (henv : b.env.Proper) (hd : d.Tree) (hps : ∀ p ∈ ps, p.Proper) (hne : ps ≠ [])
    {scene : Scene} (hrun : b.run ps d = (scene, .error (.refused r))) :
    ((∃ p ∈ ps, ¬ b.Accepts d p) →
      ∃ before p, FirstNot (b.Accepts d) ps before p ∧ r.Names p ∧ scene.disk = d) ∧
    ((∀ p ∈ ps, b.Accepts d p) →
      ∃ w, Writer.make b.env (Path.ofText b.config.outputDir) b.config.conflictStrategy = .ok w ∧
        ((∀ p ∈ ps, ∀ q ∈ ps, b.goal w p ≠ q.place b.env.cwd) →
          ∃ before p, FirstNot (b.Parses d) ps before p ∧ r.Names p ∧
            (before = [] → d.ensureDir b.env.cwd w.dir = (scene.disk, .ok ()) ∧
              MakesWay d scene.disk (w.dir.place b.env.cwd)) ∧
            (before ≠ [] → ∃ scene' result, b.run before d = (scene', .ok result) ∧ scene'.disk = scene.disk))) := by
  rcases stops_of_run hne hrun with ⟨hcheck, hdisk⟩ | ⟨hcheck, w, s, hw, hmake, hstops⟩
  · obtain ⟨before, p, hfirst, hrefusal⟩ := first_of_checkInputs hcheck
    constructor
    · intro _
      exact ⟨before, p, hfirst, names_of_refusal hrefusal, hdisk⟩
    · intro hall
      rw [checkInputs_eq_none hall] at hcheck
      cases hcheck
  · have hall : ∀ p ∈ ps, b.Accepts d p := fun p hp => refusal_eq_none_iff.mp (refusal_of_checkInputs hcheck p hp)
    constructor
    · rintro ⟨p, hp, hnot⟩
      exact absurd (hall p hp) hnot
    · intro _
      have hmade := Writer.make_of_makeOn hw
      refine ⟨w, hmade, fun hapart => ?_⟩
      obtain ⟨hdir, -⟩ := settled_of_make henv hmade
      obtain ⟨before, p, result, s₁, hfirst, hnames, hbefore, hdisk⟩ :=
        first_unparsed henv hd hps hall hdir hmake hapart hstops
      refine ⟨before, p, hfirst, hnames, fun hnil => ?_, fun hcons => ?_⟩
      · subst hnil
        obtain ⟨-, rfl⟩ := Run.yields_pure.mp hbefore
        exact ⟨hdisk ▸ hmake, hdisk ▸ (made_ensureDir hdir hmake).way⟩
      · obtain ⟨after, rfl⟩ := hfirst.stands
        have haccepts : ∀ q ∈ before, b.Accepts d q := fun q hq => hall q (List.mem_append_left _ hq)
        obtain ⟨scene', result', hrun', hdisk'⟩ := run_of_processFrom hcons haccepts hw hmake hbefore
        exact ⟨scene', result', hrun', hdisk'.trans hdisk.symm⟩

def refusal? : Except RunError BundleResult → Option Refusal
  | .error (.refused r) => some r
  | _ => none

theorem eq_refused_of_refusal? {outcome : Except RunError BundleResult} {r : Refusal} (h : refusal? outcome = some r) :
    outcome = .error (.refused r) := by
  unfold refusal? at h
  split at h
  · rw [Option.some.inj h]
  · cases h

def withBad : Disk :=
  ⟨[(["a.jsonnet"], fileOf (Utf8.encode "local x = 1; 2\n")), (["b.jsonnet"], fileOf (Utf8.encode "local x = 1"))], []⟩

theorem run_stops_at_second :
    ∃ scene r scene' result,
      (intoOut none).run [Path.ofText "a.jsonnet", Path.ofText "b.jsonnet"] withBad = (scene, .error (.refused r)) ∧
        r.Names (Path.ofText "b.jsonnet") ∧ (intoOut none).run [Path.ofText "a.jsonnet"] withBad = (scene', .ok result) ∧
        scene'.disk = scene.disk := by
  have hpath : (refusal? ((intoOut none).run [Path.ofText "a.jsonnet", Path.ofText "b.jsonnet"] withBad).2).bind (·.path) =
      some (Path.ofText "b.jsonnet") := by decide +kernel
  have haccepts : ∀ p ∈ [Path.ofText "a.jsonnet", Path.ofText "b.jsonnet"], (intoOut none).Accepts withBad p := by
    have hnone : ∀ p ∈ [Path.ofText "a.jsonnet", Path.ofText "b.jsonnet"],
        ((intoOut none).refusal withBad p).isNone = true := by decide +kernel
    exact fun p hp => refusal_eq_none_iff.mp (Option.isNone_iff_eq_none.mp (hnone p hp))
  have hapart : ∀ p ∈ [Path.ofText "a.jsonnet", Path.ofText "b.jsonnet"],
      ∀ q ∈ [Path.ofText "a.jsonnet", Path.ofText "b.jsonnet"], (intoOut none).goal toOut p ≠ q.place [] := by
    decide +kernel
  rcases hrun : (intoOut none).run [Path.ofText "a.jsonnet", Path.ofText "b.jsonnet"] withBad with ⟨scene, outcome⟩
  rw [hrun] at hpath
  obtain ⟨r, hrefused, hpath⟩ := Option.bind_eq_some_iff.mp hpath
  obtain rfl := eq_refused_of_refusal? hrefused
  have hpaths : ∀ p ∈ [Path.ofText "a.jsonnet", Path.ofText "b.jsonnet"], p.Proper := by decide
  obtain ⟨w, hw, hstops⟩ := (run_stops_at_first_fault Writer.proper_atTop (by decide +kernel) hpaths (by simp) hrun).2 haccepts
  obtain rfl : toOut = w := Except.ok.inj hw
  obtain ⟨before, p, ⟨⟨after, hsplit⟩, -, -⟩, hnames, -, hrest⟩ := hstops hapart
  obtain rfl : p = Path.ofText "b.jsonnet" := Option.some.inj (hnames.path.symm.trans hpath)
  have hbefore : before = [Path.ofText "a.jsonnet"] := by
    rcases before with _ | ⟨q, _ | ⟨q', rest⟩⟩
    · exact absurd (List.cons.inj hsplit).1 (by decide +kernel)
    · rw [(List.cons.inj hsplit).1]
    · exact absurd (congrArg List.length hsplit) (by simp)
  subst hbefore
  obtain ⟨scene', result, hrun', hdisk⟩ := hrest (by simp)
  exact ⟨scene, r, scene', result, rfl, hnames, hrun', hdisk⟩

end Bundler

end JsonnetLocals
