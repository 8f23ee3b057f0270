/-
  JsonnetLocals.Proofs.Bundle.Contained — the files of a run are in the output directory.

  A target is never above the output directory (`Bundler.prefix_goal`), because the last name of a path
  that leads to a file is not `..`. A write changes nothing but what is beside its target or in it, so
  however a run ends, the files that it changed are below the output directory, unless a target is the
  output directory itself (`Bundler.changed_of_run`).

  That happens when the root of the project is an input. Of the runs that return, exactly two kinds are
  not contained (`Bundler.run_contained_iff`): when renaming, the file goes beside the output directory
  (`Bundler.run_beside_output_directory`), and when overwriting, a target that is a directory by then is
  reported though it is no file.
-/

import JsonnetLocals.Proofs.Bundle.Stops

namespace JsonnetLocals

open Disk

namespace Run

variable {α β : Type} {s s' : Scene}

/-! ## Computations that return or fail -/

def Ends (x : Run α) (s s' : Scene) : Prop := (x.run.run s).2 = s'

theorem ends_bind {x : Run α} {f : α → Run β} :
    (x >>= f).Ends s s' ↔ (∃ e, x.Stops s e s') ∨ ∃ a s₁, x.Yields s a s₁ ∧ (f a).Ends s₁ s' := by
  unfold Ends Stops Yields
  rw [ExceptT.run_bind, StateT.run_bind]
  cases hx : x.run.run s with
  | mk r s₁ =>
    cases r with
    | error e =>
      constructor
      · rintro rfl
        exact .inl ⟨e, rfl⟩
      · rintro (⟨e', h⟩ | ⟨a, s₂, h, -⟩)
        · cases h
          rfl
        · cases h
    | ok a =>
      constructor
      · intro h
        exact .inr ⟨a, s₁, rfl, h⟩
      · rintro (⟨e, h⟩ | ⟨a', s₂, h, h'⟩)
        · cases h
        · cases h
          exact h'

theorem Stops.ends {x : Run α} {e : RunError} (h : x.Stops s e s') : x.Ends s s' := congrArg Prod.snd h

theorem Yields.ends {x : Run α} {a : α} (h : x.Yields s a s') : x.Ends s s' := congrArg Prod.snd h

theorem ends_note_bind {rs : List Record} {f : Unit → Run β} :
    (note rs >>= f).Ends s s' ↔ (f ()).Ends { s with log := s.log ++ rs } s' := Iff.rfl

theorem ends_disk_bind {f : Disk → Run β} : (disk >>= f).Ends s s' ↔ (f s.disk).Ends s s' := Iff.rfl

theorem ends_fail {e : RunError} : (fail e : Run α).Ends s s' ↔ s' = s := eq_comm

theorem ends_pure {a : α} : (pure a : Run α).Ends s s' ↔ s' = s := eq_comm

theorem ends_result_bind {r : Except RunError α} {f : α → Run β}
    (h : (((ExceptT.mk (pure r) : Run α) >>= f : Run β)).Ends s s') : s' = s ∨ ∃ a, r = .ok a ∧ (f a).Ends s s' := by
  cases r with
  | error e => exact .inl h.symm
  | ok a => exact .inr ⟨a, rfl, h⟩

theorem ends_lookUp_bind {r : Except FileError α} {f : α → Run β} (h : (lookUp r >>= f).Ends s s') :
    s' = s ∨ ∃ a, r = .ok a ∧ (f a).Ends s s' := by
  rcases ends_result_bind h with hs | ⟨a, ha, h⟩
  · exact .inl hs
  · exact .inr ⟨a, mapError_eq_ok_iff.mp ha, h⟩

/-- Writing an output changes nothing, or what the write to where the layout puts it does. -/
theorem disk_of_write {b : Bundler} {w : Writer} {p : Path} {content : Bytes} {root : Option Path}
    (h : (write b w p content root).Ends s s') :
    s'.disk = s.disk ∨
      s'.disk = (w.write s.disk b.env ⟨(w.outputPath b.env.cwd p root).1, content, some p, b.fileTime, b.faults⟩).disk := by
  unfold write at h
  rw [ends_disk_bind] at h
  have hdisk : s'.disk = (w.writeFor s.disk b.env p content root b.fileTime b.faults).disk := by
    generalize w.writeFor s.disk b.env p content root b.fileTime b.faults = step at h ⊢
    obtain ⟨w', d', log, result⟩ := step
    cases result with
    | error e =>
      cases h
      rfl
    | ok written =>
      cases h
      rfl
  rw [hdisk, Writer.writeFor]
  cases hout : w.outputFor s.disk b.env.cwd p root with
  | error e => exact .inl rfl
  | ok out =>
    obtain rfl := Writer.eq_outputPath hout
    exact .inr rfl

theorem made_of_ensureDir {cwd : Loc} {p : Path} (h : (ensureDir cwd p).Ends s s') :
    ∃ r, s.disk.ensureDir cwd p = (s'.disk, r) := by
  unfold ensureDir at h
  rw [ends_disk_bind] at h
  generalize s.disk.ensureDir cwd p = made at h ⊢
  obtain ⟨d, r⟩ := made
  cases r with
  | error e =>
    cases h
    exact ⟨_, rfl⟩
  | ok =>
    cases h
    exact ⟨_, rfl⟩

end Run

/-! ## Targets -/

/-- Going up leads from a directory to the one above it. -/
theorem Disk.follow_up {d : Disk} {path : Text} {l k : Loc} {parts : List Text}
    (h : d.follow path l (parts ++ [Path.up]) = .ok k) : ∃ m, d.get? m = some .dir ∧ k = m.dropLast := by
  induction parts generalizing l with
  | nil =>
    rw [List.nil_append, follow] at h
    split at h
    · cases h
    · cases h
    · rename_i hdir
      split at h
      · cases h
      · rw [follow, Except.ok.injEq, Path.stepLoc, if_pos (by decide)] at h
        exact ⟨l, hdir, h.symm⟩
  | cons part parts ih =>
    rw [List.cons_append, follow] at h
    split at h
    · cases h
    · cases h
    · split at h
      · cases h
      · exact ih h

/-- The last name of a path that leads to a file does not go up. -/
theorem Disk.Tree.name_ne_up {d : Disk} {cwd : Loc} {p : Path} {data : Bytes} (hd : d.Tree)
    (h : d.contents cwd p = .ok data) : p.name ≠ Path.up := by
  intro hup
  obtain ⟨l, hl, hfile⟩ := contents_eq_ok_iff.mp h
  have hparts : p.parts = p.parts.dropLast ++ [Path.up] := by
    have hne : p.parts ≠ [] := by
      intro hnil
      rw [Path.name, hnil] at hup
      exact absurd hup (by decide)
    rw [← hup, Path.name, List.getLastD_eq_getLast?, List.getLast?_eq_some_getLast hne, Option.getD_some]
    exact (List.dropLast_append_getLast hne).symm
  unfold locate at hl
  split at hl
  · cases hl
  · split at hl
    · cases hl
    · rw [hparts] at hl
      obtain ⟨m, hm, rfl⟩ := follow_up hl
      have hdir : d.get? m.dropLast = some .dir := (hd m (by rw [hm]; simp)).self
      rw [fileAt, hdir] at hfile
      cases hfile

namespace Bundler

variable {b : Bundler} {w w' : Writer} {d d' : Disk} {p q : Path} {ps : List Path} {f : FileResult}
  {fs : List FileResult} {source content : Bytes} {tree : Node} {x : Renamed} {r : Written} {s s' : Scene} {l : Loc}

/-- The names of a target go on from those of the output directory. -/
theorem target_settled (henv : b.env.Proper) (hdir : w.dir.Settled) (hp : p.Proper) (hup : p.name ≠ Path.up) :
    (b.target w p).Settled ∧ w.dir.parts <+: (b.target w p).parts := by
  obtain ⟨q, heq, hanchor, hproper, hnames⟩ := w.outputPath_eq_join henv hp b.root
  have hjoin : b.target w p = { w.dir with parts := w.dir.parts ++ q.parts } := by
    rw [target, heq, Path.join, if_pos hanchor]
  rw [hjoin]
  refine ⟨⟨hdir.anchor, fun t ht => ?_⟩, List.prefix_append _ _⟩
  rcases List.mem_append.mp ht with ht | ht
  · exact hdir.parts t ht
  · exact ⟨hproper t ht, hnames hup t ht⟩

/-- A target is not above the output directory. -/
theorem prefix_goal (henv : b.env.Proper) (hdir : w.dir.Settled) (hp : p.Proper) (hup : p.name ≠ Path.up) :
    w.dir.place b.env.cwd <+: b.goal w p := by
  obtain ⟨hsettled, hle⟩ := target_settled henv hdir hp hup
  rw [goal, hdir.place_eq, hsettled.place_eq]
  exact hle.map Text.storedName

/-! ## Files that change -/

/-- Processing a file writes at most once. -/
theorem disk_of_processFile (h : (b.processFile w p).Ends s s') :
    s'.disk = s.disk ∨ ∃ content, s'.disk = (w.write s.disk b.env (b.callFor w p content)).disk := by
  unfold processFile at h
  dsimp only at h
  rw [Run.ends_disk_bind] at h
  split at h
  · rw [Run.ends_fail.mp h]
    exact .inl rfl
  · rw [Run.ends_note_bind, Run.ends_note_bind] at h
    rcases Run.ends_result_bind h with rfl | ⟨x, -, h⟩
    · exact .inl rfl
    · rcases Run.ends_result_bind h with rfl | ⟨content, -, h⟩
      · exact .inl rfl
      · rcases Run.ends_bind.mp h with ⟨e, hwrite⟩ | ⟨⟨w', written⟩, s₁, hwrite, h⟩
        · exact (Run.disk_of_write hwrite.ends).imp id fun hdisk => ⟨content, hdisk⟩
        · have hlast : s'.disk = s₁.disk := by
            split at h
            · rw [Run.ends_note_bind, Run.ends_note_bind] at h
              rw [Run.ends_pure.mp h]
            · rw [Run.ends_note_bind] at h
              rw [Run.ends_pure.mp h]
          rw [hlast]
          exact (Run.disk_of_write hwrite.ends).imp id fun hdisk => ⟨content, hdisk⟩

theorem changed_of_processFile (henv : b.env.Proper) (hdir : w.dir.Settled) (hp : p.Proper)
    (h : (b.processFile w p).Ends s s') (hl : s'.disk.fileAt l ≠ s.disk.fileAt l) :
    Loc.Inside (b.goal w p).dropLast l := by
  rcases disk_of_processFile h with hdisk | ⟨content, hdisk⟩
  · exact absurd (by rw [hdisk]) hl
  · rw [hdisk] at hl
    obtain ⟨habs, hproper⟩ := callFor_absolute henv hdir hp content
    exact Writer.inside_of_changed_write henv hproper habs hl

/-- Whatever changes while files are processed is beside a target or in it. -/
theorem changed_of_processFrom (henv : b.env.Proper) (hdir : w.dir.Settled) (hps : ∀ p ∈ ps, p.Proper)
    {targets : List (Path × Path)} (h : (b.processFrom w targets ps).Ends s s')
    (hl : s'.disk.fileAt l ≠ s.disk.fileAt l) : ∃ p ∈ ps, Loc.Inside (b.goal w p).dropLast l := by
  induction ps generalizing w targets s with
  | nil => exact absurd (by rw [Run.ends_pure.mp h]) hl
  | cons p ps ih =>
    rw [List.forall_mem_cons] at hps
    unfold processFrom at h
    dsimp only at h
    rw [Run.ends_disk_bind] at h
    rcases Run.ends_lookUp_bind h with rfl | ⟨_, -, h⟩
    · exact absurd rfl hl
    rw [Run.ends_note_bind, Run.ends_note_bind] at h
    rcases Run.ends_bind.mp h with ⟨e, hfile⟩ | ⟨⟨w', f⟩, s₁, hfile, h⟩
    · exact ⟨p, List.mem_cons_self, changed_of_processFile henv hdir hps.1 hfile.ends hl⟩
    · obtain ⟨_, _, _, _, _, hprocessed⟩ := processed_of_processFile hfile
      have hsame := hprocessed.dir_eq henv hdir hps.1
      by_cases hfirst : s₁.disk.fileAt l = s.disk.fileAt l
      · have hrest : ∃ targets', (b.processFrom w' targets' ps).Ends s₁ s' := by
          rcases Run.ends_bind.mp h with ⟨e, h⟩ | ⟨a, s₂, h, hlast⟩
          · exact ⟨_, h.ends⟩
          · rw [Run.ends_pure.mp hlast]
            exact ⟨_, h.ends⟩
        obtain ⟨targets', hrest⟩ := hrest
        obtain ⟨q, hq, hinside⟩ := ih (hsame ▸ hdir) hps.2 hrest (hfirst ▸ hl)
        rw [goal_congr hsame] at hinside
        exact ⟨q, List.mem_cons_of_mem p hq, hinside⟩
      · exact ⟨p, List.mem_cons_self, changed_of_processFile henv hdir hps.1 hfile.ends hfirst⟩

/-- However a run ends, what it changes is beside a target or in it, and its inputs could all be taken. -/
theorem changed_of_run (henv : b.env.Proper) (hps : ∀ p ∈ ps, p.Proper) {scene : Scene}
    {outcome : Except RunError BundleResult} (h : b.run ps d = (scene, outcome))
    (hl : scene.disk.fileAt l ≠ d.fileAt l) :
    (∀ p ∈ ps, b.Accepts d p) ∧
      ∃ w, Writer.make b.env (Path.ofText b.config.outputDir) b.config.conflictStrategy = .ok w ∧
        ∃ p ∈ ps, Loc.Inside (b.goal w p).dropLast l := by
  have hends : (b.process ps).Ends ⟨d, [], []⟩ scene := (Prod.mk.inj h).1
  unfold process at hends
  dsimp only at hends
  by_cases hempty : ps.isEmpty = true
  · rw [if_pos hempty] at hends
    rcases Run.ends_bind.mp hends with ⟨e, hfail⟩ | ⟨_, _, hfail, -⟩
    · rw [(Run.stops_fail.mp hfail).2] at hl
      exact absurd rfl hl
    · exact absurd hfail Run.not_yields_fail
  · rw [if_neg hempty, Run.ends_note_bind, Run.ends_disk_bind, Run.ends_note_bind] at hends
    cases hcheck : (b.checkInputs d ps).2 with
    | some e =>
      rw [hcheck] at hends
      rw [Run.ends_fail.mp hends] at hl
      exact absurd rfl hl
    | none =>
      rw [hcheck] at hends
      dsimp only at hends
      rw [Run.ends_disk_bind] at hends
      rcases Run.ends_lookUp_bind hends with rfl | ⟨w, hmakeOn, hends⟩
      · exact absurd rfl hl
      · have hw := Writer.make_of_makeOn (Run.mapError_eq_ok_iff.mp hmakeOn)
        obtain ⟨hdir, -⟩ := settled_of_make henv hw
        rw [Run.ends_note_bind] at hends
        have hmade {s₀ s₁ : Scene} (hs₀ : s₀.disk = d) (h : (Run.ensureDir b.env.cwd w.dir).Ends s₀ s₁) :
            s₁.disk.fileAt l = d.fileAt l := by
          obtain ⟨r, hmake⟩ := Run.made_of_ensureDir h
          rw [hs₀] at hmake
          exact (made_ensureDir hdir hmake).way.fileAt_eq l
        refine ⟨fun p hp => refusal_eq_none_iff.mp (refusal_of_checkInputs hcheck p hp), w, hw, ?_⟩
        rcases Run.ends_bind.mp hends with ⟨e, hstops⟩ | ⟨_, s₁, hyields, hends⟩
        · exact absurd (hmade rfl hstops.ends) hl
        · have hfiles : ∃ s₂, (b.processFrom w [] ps).Ends s₁ s₂ ∧ scene.disk = s₂.disk := by
            rcases Run.ends_bind.mp hends with ⟨e, hstops⟩ | ⟨result, s₂, hfiles, hends⟩
            · exact ⟨scene, hstops.ends, rfl⟩
            · rw [Run.ends_note_bind] at hends
              have hdisk := congrArg Scene.disk (Run.ends_pure.mp hends)
              exact ⟨s₂, hfiles.ends, hdisk⟩
          obtain ⟨s₂, hfiles, hdisk⟩ := hfiles
          rw [hdisk, ← hmade rfl hyields.ends] at hl
          exact changed_of_processFrom henv hdir hps hfiles hl

/-! ## One file of a run that returns -/

namespace Processed

variable (henv : b.env.Proper) (hdir : w.dir.Settled) (hp : p.Proper)
  (h : Processed b w d p f w' d' source tree x content r)

include henv hdir hp h

/-- A file that changes is beside the target or in it. -/
theorem changed (hl : d'.fileAt l ≠ d.fileAt l) : Loc.Inside (b.goal w p).dropLast l := by
  obtain ⟨habs, hproper⟩ := callFor_absolute henv hdir hp content
  rw [← h.disk] at hl
  exact Writer.inside_of_changed_write henv hproper habs hl

/-- The output lies beside the target, in a directory. -/
theorem beside (hq : f.output = some q) :
    (q.place b.env.cwd).dropLast = (b.goal w p).dropLast ∧ d'.Opens (b.goal w p).dropLast := by
  obtain ⟨habs, hproper⟩ := callFor_absolute henv hdir hp content
  rw [← h.disk]
  exact Writer.beside_write henv hproper habs h.written (h.output ▸ hq)

theorem place_eq_goal (hs : w.strategy ≠ .rename) (hq : f.output = some q) : q.place b.env.cwd = b.goal w p := by
  obtain ⟨habs, hproper⟩ := callFor_absolute henv hdir hp content
  exact Writer.output_of_ne_rename henv hproper habs hs h.written (h.output ▸ hq)

/-- Without overwriting, the place of the output was empty. -/
theorem place_empty (hd : d.Tree) (hs : w.strategy ≠ .overwrite) (hq : f.output = some q) :
    d.get? (q.place b.env.cwd) = none := by
  obtain ⟨-, hproper⟩ := callFor_absolute henv hdir hp content
  have hout : Turn.output? ⟨d, b.callFor w p content, w.write d b.env (b.callFor w p content)⟩ = some q := by
    rw [Turn.output?, h.written]
    exact h.output.symm.trans hq
  exact (Writer.landing_write henv hproper hd hs hout).empty

theorem exists_output (hs : w.strategy = .rename) : ∃ q, f.output = some q := by
  obtain ⟨-, hproper⟩ := callFor_absolute henv hdir hp content
  rw [h.output]
  exact Option.ne_none_iff_exists'.mp (Writer.output?_ne_none henv hproper hs h.written)

theorem fileAt_or {data : Bytes} (hl : d.fileAt l = some data) :
    d'.fileAt l = some data ∨ d'.fileAt l = some content := by
  obtain ⟨-, hproper⟩ := callFor_absolute henv hdir hp content
  rw [← h.disk]
  exact Writer.fileAt_write_or henv hproper h.written hl

/-- When skipping, nothing happens at a target that is a directory. -/
theorem fileAt_skip (hd : d.Tree) (hs : w.strategy = .skip) (hgoal : d.get? (b.goal w p) = some .dir) :
    d'.fileAt l = d.fileAt l := by
  have hover : w.strategy ≠ .overwrite := by
    rw [hs]
    decide
  have hwrote := h.wrote henv hdir hp hd fun hs' => absurd hs' hover
  cases hout : f.output with
  | none =>
    rw [hout] at hwrote
    rw [hwrote]
  | some q =>
    have hempty := h.place_empty henv hdir hp hd hover hout
    rw [h.place_eq_goal henv hdir hp (by rw [hs]; decide) hout, hgoal] at hempty
    cases hempty

end Processed

/-- The content is what renaming and rendering some tree of the input gives. -/
def Produces (b : Bundler) (p : Path) (content : Bytes) : Prop :=
  ∃ source tree x, parse p.text source = .ok tree ∧
    (renameLocals tree source (fileIdentity b.env.cwd p b.root) b.config.separator).2 = .ok x ∧
    b.render x (fileIdentity b.env.cwd p b.root) = .ok content

theorem Processed.produces (h : Processed b w d p f w' d' source tree x content r) : b.Produces p content :=
  ⟨source, tree, x, h.parsed, h.renamed, h.rendered⟩

/-! ## All files of a run that returns -/

theorem mem_outputs {P : Path → Path → Prop}
    (h : List.Forall₂ (fun p f => ∃ q, f.output = some q ∧ P p q) ps fs) (hp : p ∈ ps) :
    ∃ q ∈ fs.filterMap (·.output), P p q := by
  induction h with
  | nil => cases hp
  | cons hfirst _ ih =>
    rcases List.mem_cons.mp hp with rfl | hp
    · obtain ⟨q, hq, hP⟩ := hfirst
      exact ⟨q, List.mem_filterMap.mpr ⟨_, List.mem_cons_self, hq⟩, hP⟩
    · obtain ⟨q, hq, hP⟩ := ih hp
      obtain ⟨f, hf, hout⟩ := List.mem_filterMap.mp hq
      exact ⟨q, List.mem_filterMap.mpr ⟨f, List.mem_cons_of_mem _ hf, hout⟩, hP⟩

namespace Chain

variable (henv : b.env.Proper)

include henv

/-- What the run wrote stays a file, with what was written there last. -/
theorem holds (h : Chain b w d ps fs d') (hdir : w.dir.Settled) (hps : ∀ p ∈ ps, p.Proper)
    (hq : d.contents b.env.cwd q = .ok content) (hp : b.Produces p content) :
    ∃ p' ∈ p :: ps, ∃ content', b.Produces p' content' ∧ d'.contents b.env.cwd q = .ok content' := by
  induction h generalizing p content with
  | nil => exact ⟨p, List.mem_cons_self, content, hp, hq⟩
  | @cons w w' d d₁ d' p₁ ps f fs source tree x content₁ out hfile _ ih =>
    rw [List.forall_mem_cons] at hps
    have hdir' : w'.dir.Settled := hfile.dir_eq henv hdir hps.1 ▸ hdir
    obtain ⟨l, hl, hfileAt⟩ := contents_eq_ok_iff.mp hq
    have hl' := locate_mono (fun k => hfile.dir_kept henv hdir hps.1) hl
    rcases hfile.fileAt_or henv hdir hps.1 hfileAt with hkept | hnew
    · obtain ⟨p', hp', hrest⟩ := ih hdir' hps.2 (contents_eq_ok_iff.mpr ⟨l, hl', hkept⟩) hp
      refine ⟨p', ?_, hrest⟩
      exact (List.mem_cons.mp hp').elim (fun e => e ▸ List.mem_cons_self)
        fun hmem => List.mem_cons_of_mem _ (List.mem_cons_of_mem _ hmem)
    · obtain ⟨p', hp', hrest⟩ := ih hdir' hps.2 (contents_eq_ok_iff.mpr ⟨l, hl', hnew⟩) hfile.produces
      exact ⟨p', List.mem_cons_of_mem _ hp', hrest⟩

/-- A file that changes is beside a target or in it; when skipping, the target was no directory. -/
theorem changed (h : Chain b w d ps fs d') (hdir : w.dir.Settled) (hps : ∀ p ∈ ps, p.Proper) (hd : d.Tree) {top : Loc}
    (htop : d.get? top = some .dir) (hl : d'.fileAt l ≠ d.fileAt l) :
    ∃ p ∈ ps, Loc.Inside (b.goal w p).dropLast l ∧ (w.strategy = .skip → b.goal w p ≠ top) := by
  induction h with
  | nil => exact absurd rfl hl
  | @cons w w' d d₁ d' p ps f fs source tree x content out hfile _ ih =>
    rw [List.forall_mem_cons] at hps
    have hsame := hfile.dir_eq henv hdir hps.1
    by_cases hfirst : d₁.fileAt l = d.fileAt l
    · obtain ⟨q, hq, hinside, hskip⟩ := ih (hsame ▸ hdir) hps.2 (hfile.tree_after henv hdir hps.1 hd)
        (hfile.dir_kept henv hdir hps.1 htop) (hfirst ▸ hl)
      rw [goal_congr hsame] at hinside hskip
      rw [hfile.strategy_eq henv hdir hps.1] at hskip
      exact ⟨q, List.mem_cons_of_mem p hq, hinside, hskip⟩
    · refine ⟨p, List.mem_cons_self, hfile.changed henv hdir hps.1 hfirst, fun hs hgoal => ?_⟩
      exact hfirst (hfile.fileAt_skip henv hdir hps.1 hd hs (hgoal ▸ htop))

/-- When renaming, there is an output beside every target. -/
theorem outputs_beside (h : Chain b w d ps fs d') (hdir : w.dir.Settled) (hps : ∀ p ∈ ps, p.Proper)
    (hs : w.strategy = .rename) :
    List.Forall₂ (fun p f => ∃ q, f.output = some q ∧ (q.place b.env.cwd).dropLast = (b.goal w p).dropLast) ps fs := by
  induction h with
  | nil => exact .nil
  | cons hfile _ ih =>
    rw [List.forall_mem_cons] at hps
    have hsame := hfile.dir_eq henv hdir hps.1
    have hrest := ih (hsame ▸ hdir) hps.2 ((hfile.strategy_eq henv hdir hps.1).trans hs)
    rw [goal_congr hsame] at hrest
    obtain ⟨q, hq⟩ := hfile.exists_output henv hdir hps.1 hs
    exact .cons ⟨q, hq, (hfile.beside henv hdir hps.1 hq).1⟩ hrest

/-- When overwriting, the directories of all targets are there in the end. -/
theorem opens (h : Chain b w d ps fs d') (hdir : w.dir.Settled) (hps : ∀ p ∈ ps, p.Proper)
    (hs : w.strategy = .overwrite) : ∀ p ∈ ps, d'.Opens (b.goal w p).dropLast := by
  induction h with
  | nil => exact List.forall_mem_nil _
  | cons hfile hchain ih =>
    rw [List.forall_mem_cons] at hps
    have hsame := hfile.dir_eq henv hdir hps.1
    have hrest := ih (hsame ▸ hdir) hps.2 ((hfile.strategy_eq henv hdir hps.1).trans hs)
    rw [goal_congr hsame] at hrest
    obtain ⟨q, hq, -⟩ := hfile.output_eq henv hdir hps.1 hs
    have hfirst := (hfile.beside henv hdir hps.1 hq).2
    exact List.forall_mem_cons.mpr
      ⟨hfirst.mono fun k => hchain.dir_kept henv (hsame ▸ hdir) hps.2, hrest⟩

end Chain

/-- What holds of the disk before the inputs that are left, when each of their outputs will be a file below `top`. -/
structure Clear (b : Bundler) (w : Writer) (d : Disk) (top : Loc) (ps : List Path) : Prop where
  dir : w.dir.Settled
  tree : d.Tree
  proper : ∀ p ∈ ps, p.Proper
  opened : d.get? top = some .dir
  above : ∀ p ∈ ps, top <+: b.goal w p
  beside : w.strategy = .rename → ∀ p ∈ ps, b.goal w p = top → top = []
  free : w.strategy = .overwrite → ∀ p ∈ ps, d.get? (b.goal w p) ≠ some .dir
  apart : w.strategy = .overwrite → ∀ p ∈ ps, ∀ q ∈ ps, ¬ b.goal w p <+: (b.goal w q).dropLast

namespace Clear

variable {top : Loc}

theorem above_dropLast (h : Clear b w d top ps) (hp : p ∈ ps) (hskip : w.strategy = .skip → b.goal w p ≠ top) :
    top <+: (b.goal w p).dropLast := by
  refine Loc.prefix_dropLast (h.above p hp) fun heq => ?_
  cases hs : w.strategy with
  | rename => exact h.beside hs p hp heq
  | skip => exact absurd heq (hskip hs)
  | overwrite => exact absurd (heq ▸ h.opened) (h.free hs p hp)

/-- Processing one file keeps it so for the others. -/
theorem next (henv : b.env.Proper) (h : Clear b w d top (p :: ps))
    (hfile : Processed b w d p f w' d' source tree x content r) : Clear b w' d' top ps := by
  have hp := h.proper p List.mem_cons_self
  have hsame := hfile.dir_eq henv h.dir hp
  have hgoal := goal_congr (b := b) hsame
  have hstrategy := hfile.strategy_eq henv h.dir hp
  have hmem {q : Path} (hq : q ∈ ps) : q ∈ p :: ps := List.mem_cons_of_mem p hq
  constructor
  · exact hsame ▸ h.dir
  · exact hfile.tree_after henv h.dir hp h.tree
  · exact fun q hq => h.proper q (hmem hq)
  · exact hfile.dir_kept henv h.dir hp h.opened
  · rw [hgoal]
    exact fun q hq => h.above q (hmem hq)
  · rw [hgoal, hstrategy]
    exact fun hs q hq => h.beside hs q (hmem hq)
  · rw [hgoal, hstrategy]
    intro hs q hq hdir
    have hle := hfile.prefix_of_new_dir henv h.dir hp (h.free hs q (hmem hq)) hdir
    exact h.apart hs q (hmem hq) p List.mem_cons_self hle
  · rw [hgoal, hstrategy]
    exact fun hs q hq q' hq' => h.apart hs q (hmem hq) q' (hmem hq')

/-- The output for the next input is a file below `top`. -/
theorem output (henv : b.env.Proper) (h : Clear b w d top (p :: ps))
    (hfile : Processed b w d p f w' d' source tree x content r) (hq : f.output = some q) :
    Loc.Inside top (q.place b.env.cwd) ∧ d'.contents b.env.cwd q = .ok content := by
  have hp := h.proper p List.mem_cons_self
  have hwrote := hfile.wrote henv h.dir hp h.tree fun hs => h.free hs p List.mem_cons_self
  rw [hq] at hwrote
  refine ⟨?_, hwrote.holds⟩
  have hne : q.place b.env.cwd ≠ [] := by
    obtain ⟨l, hl, hcontent⟩ := contents_eq_ok_iff.mp hwrote.holds
    rw [← locate_eq_place henv hl]
    rintro rfl
    rw [fileAt, get?_nil] at hcontent
    cases hcontent
  refine Loc.inside_iff.mpr ⟨hne, ?_⟩
  rw [(hfile.beside henv h.dir hp hq).1]
  refine h.above_dropLast List.mem_cons_self fun hs heq => ?_
  have hempty := hfile.place_empty henv h.dir hp h.tree (by rw [hs]; decide) hq
  rw [hfile.place_eq_goal henv h.dir hp (by rw [hs]; decide) hq, heq, h.opened] at hempty
  cases hempty

theorem outputs (henv : b.env.Proper) (h : Clear b w d top ps) (hchain : Chain b w d ps fs d') :
    ∀ q ∈ fs.filterMap (·.output), Loc.Inside top (q.place b.env.cwd) ∧
      ∃ p ∈ ps, ∃ content, b.Produces p content ∧ d'.contents b.env.cwd q = .ok content := by
  induction hchain with
  | nil => exact List.forall_mem_nil _
  | @cons w w' d d₁ d' p ps f fs source tree x content out hfile hrest ih =>
    have hnext := h.next henv hfile
    intro q hq
    obtain ⟨g, hg, hout⟩ := List.mem_filterMap.mp hq
    rcases List.mem_cons.mp hg with rfl | hg
    · obtain ⟨hinside, hholds⟩ := h.output henv hfile hout
      exact ⟨hinside, hrest.holds henv hnext.dir hnext.proper hholds hfile.produces⟩
    · obtain ⟨hinside, p', hp', hproduced⟩ := ih hnext q (List.mem_filterMap.mpr ⟨g, hg, hout⟩)
      exact ⟨hinside, p', List.mem_cons_of_mem p hp', hproduced⟩

theorem files (henv : b.env.Proper) (h : Clear b w d top ps) (hchain : Chain b w d ps fs d')
    (hl : d'.fileAt l ≠ d.fileAt l) : Loc.Inside top l := by
  obtain ⟨p, hp, hinside, hskip⟩ := hchain.changed henv h.dir h.proper h.tree h.opened hl
  exact hinside.above (h.above_dropLast hp hskip)

end Clear

/-! ## Runs -/

/-- The files that a run made or changed are below the output directory, and what it reports are such files. -/
structure Contained (b : Bundler) (w : Writer) (d d' : Disk) (ps : List Path) (result : BundleResult) : Prop where
  files : ∀ l, d'.fileAt l ≠ d.fileAt l → Loc.Inside (w.dir.place b.env.cwd) l
  outputs : ∀ q ∈ result.writtenFiles, Loc.Inside (w.dir.place b.env.cwd) (q.place b.env.cwd) ∧
    ∃ p ∈ ps, ∃ content, b.Produces p content ∧ d'.contents b.env.cwd q = .ok content

/-- A target is the output directory, so that a new name for it is beside that directory. -/
def RenamesDir (b : Bundler) (w : Writer) (ps : List Path) : Prop :=
  w.strategy = .rename ∧ w.dir.place b.env.cwd ≠ [] ∧ ∃ p ∈ ps, b.goal w p = w.dir.place b.env.cwd

/-- A target to overwrite is a directory: the output directory, one that was there or one above another target. -/
def OverwritesDir (b : Bundler) (w : Writer) (d : Disk) (ps : List Path) : Prop :=
  w.strategy = .overwrite ∧ ∃ p ∈ ps, b.goal w p = w.dir.place b.env.cwd ∨ d.get? (b.goal w p) = some .dir ∨
    ∃ q ∈ ps, b.goal w p <+: (b.goal w q).dropLast

variable {d₀ : Disk}

theorem clear_of_made (hd : d.Tree) (hps : ∀ p ∈ ps, p.Proper) (hdir : w.dir.Settled)
    (habove : ∀ p ∈ ps, w.dir.place b.env.cwd <+: b.goal w p) (hmade : Made d d₀ w.dir b.env.cwd (.ok ()))
    (hrename : ¬ RenamesDir b w ps) (hover : ¬ OverwritesDir b w d ps) :
    Clear b w d₀ (w.dir.place b.env.cwd) ps := by
  refine ⟨hdir, hmade.tree hd, hps, (hmade.opens rfl).self, habove, ?_, ?_, ?_⟩
  · intro hs p hp hgoal
    by_contra hne
    exact hrename ⟨hs, hne, p, hp, hgoal⟩
  · intro hs p hp hgoal
    rcases hmade.way (b.goal w p) with heq | ⟨-, -, hle⟩
    · exact hover ⟨hs, p, hp, .inr (.inl (heq.symm.trans hgoal))⟩
    · exact hover ⟨hs, p, hp, .inl (hle.eq_of_length_le (habove p hp).length_le)⟩
  · intro hs p hp q hq hle
    exact hover ⟨hs, p, hp, .inr (.inr ⟨q, hq, hle⟩)⟩

/-- A target to overwrite that is such a directory is one in the end. -/
theorem OverwritesDir.get?_eq (henv : b.env.Proper) (hdir : w.dir.Settled) (hps : ∀ p ∈ ps, p.Proper)
    (hmade : Made d d₀ w.dir b.env.cwd (.ok ())) (hchain : Chain b w d₀ ps fs d') (h : OverwritesDir b w d ps) :
    ∃ p ∈ ps, d'.get? (b.goal w p) = some .dir := by
  obtain ⟨hs, p, hp, hgoal⟩ := h
  refine ⟨p, hp, ?_⟩
  rcases hgoal with hgoal | hgoal | ⟨q, hq, hle⟩
  · rw [hgoal]
    exact hchain.dir_kept henv hdir hps (hmade.opens rfl).self
  · exact hchain.dir_kept henv hdir hps (hmade.way.keeps _ _ hgoal)
  · exact hchain.opens henv hdir hps hs q hq _ hle

/-- However a run ends, the files that it changed are below the output directory, unless a target is that directory. A
    run that returns is contained unless it renames the output directory or overwrites a directory. -/
theorem run_contained_iff (henv : b.env.Proper) (hd : d.Tree) (hps : ∀ p ∈ ps, p.Proper) {scene : Scene}
    {outcome : Except RunError BundleResult} (hrun : b.run ps d = (scene, outcome)) :
    (∀ l, scene.disk.fileAt l ≠ d.fileAt l →
      ∃ w, Writer.make b.env (Path.ofText b.config.outputDir) b.config.conflictStrategy = .ok w ∧
        (Loc.Inside (w.dir.place b.env.cwd) l ∨
          w.dir.place b.env.cwd ≠ [] ∧ ∃ p ∈ ps, b.goal w p = w.dir.place b.env.cwd)) ∧
    ∀ result, outcome = .ok result →
      ∃ w, Writer.make b.env (Path.ofText b.config.outputDir) b.config.conflictStrategy = .ok w ∧
        (Contained b w d scene.disk ps result ↔ ¬ RenamesDir b w ps ∧ ¬ OverwritesDir b w d ps) := by
  have hgoals {w : Writer} (hdir : w.dir.Settled) (hall : ∀ p ∈ ps, ∃ data, d.contents b.env.cwd p = .ok data) :
      ∀ p ∈ ps, w.dir.place b.env.cwd <+: b.goal w p := by
    intro p hp
    obtain ⟨data, hdata⟩ := hall p hp
    exact prefix_goal henv hdir (hps p hp) (hd.name_ne_up hdata)
  constructor
  · intro l hl
    obtain ⟨hall, w, hw, p, hp, hinside⟩ := changed_of_run henv hps hrun hl
    obtain ⟨hdir, -⟩ := settled_of_make henv hw
    refine ⟨w, hw, ?_⟩
    by_cases hgoal : w.dir.place b.env.cwd ≠ [] ∧ b.goal w p = w.dir.place b.env.cwd
    · exact .inr ⟨hgoal.1, p, hp, hgoal.2⟩
    · have habove := hgoals hdir (fun p hp => (hall p hp).imp fun _ h => h.1) p hp
      refine .inl (hinside.above (Loc.prefix_dropLast habove fun heq => ?_))
      by_contra hne
      exact hgoal ⟨hne, heq⟩
  · rintro result rfl
    obtain ⟨w, d₀, hw, hinputs, hmake, hchain⟩ := chain_of_run hrun
    obtain ⟨hdir, -⟩ := settled_of_make henv hw
    have hmade := made_ensureDir hdir hmake
    have habove := hgoals hdir fun p hp => exists_contents_of_refusal (hinputs p hp)
    refine ⟨w, hw, fun hcontained => ⟨?_, ?_⟩, fun ⟨hrename, hover⟩ => ?_⟩
    · -- the new name is beside the output directory
      rintro ⟨hs, hne, p, hp, hgoal⟩
      obtain ⟨q, hq, hbeside⟩ := mem_outputs (hchain.outputs_beside henv hdir hps hs) hp
      have hinside := (Loc.inside_iff.mp (hcontained.outputs q hq).1).2
      rw [hbeside, hgoal] at hinside
      exact Loc.not_prefix_dropLast hne hinside
    · -- the output is a directory to the end
      intro hover
      obtain ⟨p, hp, hgoal⟩ := hover.get?_eq henv hdir hps hmade hchain
      obtain ⟨q, hq, hplace⟩ := mem_outputs (hchain.outputs henv hdir hps hover.1) hp
      obtain ⟨-, _, _, content, -, hcontents⟩ := hcontained.outputs q hq
      obtain ⟨l, hl, hfile⟩ := contents_eq_ok_iff.mp hcontents
      rw [locate_eq_place henv hl, hplace, fileAt, hgoal] at hfile
      cases hfile
    · have hclear := clear_of_made hd hps hdir habove hmade hrename hover
      refine ⟨fun l hl => hclear.files henv hchain ?_, hclear.outputs henv hchain⟩
      rwa [hmade.way.fileAt_eq]

def renamingOut (root : Option Text) : Bundler :=
  { intoOut root with config := { (intoOut root).config with conflictStrategy := .rename } }

theorem run_contained_below_out :
    ∃ scene result, (renamingOut none).run [Path.ofText "a.jsonnet"] withSource = (scene, .ok result) ∧
      ∃ w, Writer.make Writer.atTop (Path.ofText "out") .rename = .ok w ∧
        Contained (renamingOut none) w withSource scene.disk [Path.ofText "a.jsonnet"] result := by
  have hok : ((renamingOut none).run [Path.ofText "a.jsonnet"] withSource).2.isOk = true := by decide +kernel
  rcases hrun : (renamingOut none).run [Path.ofText "a.jsonnet"] withSource with ⟨scene, _ | result⟩
  · rw [hrun] at hok
    cases hok
  · have hpaths : ∀ p ∈ [Path.ofText "a.jsonnet"], p.Proper := List.forall_mem_singleton.mpr (Path.proper_ofText _)
    obtain ⟨w, hw, hiff⟩ := (run_contained_iff Writer.proper_atTop (by decide) hpaths hrun).2 result rfl
    refine ⟨scene, result, rfl, w, hw, hiff.mpr ⟨?_, ?_⟩⟩
    · obtain rfl := Except.ok.inj hw
      rintro ⟨-, -, p, hp, hgoal⟩
      obtain rfl := List.mem_singleton.mp hp
      have hgoal : (["out", "a.jsonnet"] : Loc) = ["out"] := hgoal
      exact absurd hgoal (by decide)
    · obtain rfl := Except.ok.inj hw
      rintro ⟨hs, -⟩
      cases hs

/-- When the root of the project is the only input, its target is the output directory. The run makes that directory,
    finds it taken, and writes beside it. -/
theorem run_beside_output_directory :
    ∃ scene result, (renamingOut (some "a.jsonnet")).run [Path.ofText "a.jsonnet"] withSource = (scene, .ok result) ∧
      result.writtenFiles = [⟨.absolute, ["out_20240501_123000"]⟩] ∧
      withSource.fileAt ["out_20240501_123000"] = none ∧
      scene.disk.fileAt ["out_20240501_123000"] = some (Utf8.encode "local _2b0c98f1_x = 1; 2\n") ∧
      ¬ ∃ w, Writer.make Writer.atTop (Path.ofText "out") .rename = .ok w ∧
        Contained (renamingOut (some "a.jsonnet")) w withSource scene.disk [Path.ofText "a.jsonnet"] result := by
  have hfile : ((renamingOut (some "a.jsonnet")).run [Path.ofText "a.jsonnet"] withSource).1.disk.fileAt
      ["out_20240501_123000"] = some (Utf8.encode "local _2b0c98f1_x = 1; 2\n") := by decide +kernel
  have hwritten : ((renamingOut (some "a.jsonnet")).run [Path.ofText "a.jsonnet"] withSource).2.toOption.map
      BundleResult.writtenFiles = some [⟨.absolute, ["out_20240501_123000"]⟩] := by decide +kernel
  rcases hrun : (renamingOut (some "a.jsonnet")).run [Path.ofText "a.jsonnet"] withSource with ⟨scene, _ | result⟩
  · rw [hrun] at hwritten
    cases hwritten
  · rw [hrun] at hfile hwritten
    refine ⟨scene, result, rfl, Option.some.inj hwritten, by decide, hfile, ?_⟩
    rintro ⟨w, hw, hcontained⟩
    obtain rfl := Except.ok.inj hw
    have hinside := hcontained.files ["out_20240501_123000"] (by rw [hfile]; decide)
    have hle : (["out"] : Loc) <+: ["out_20240501_123000"] := hinside.1
    exact absurd hle (by decide)

end Bundler

end JsonnetLocals
