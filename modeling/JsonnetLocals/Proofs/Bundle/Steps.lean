/-
  JsonnetLocals.Proofs.Bundle.Steps — what a run that returns did, file by file.

  `Run.Yields` says that a computation returns a value and the scene that it leaves; a computation in
  sequence yields what its parts yield (`Run.yields_bind`). A file that was processed was read, parsed,
  renamed, rendered and written (`Bundler.Processed`), and a run that returns made the output directory
  and then processed its files one after another (`Bundler.Chain`, `Bundler.chain_of_run`).
-/

import JsonnetLocals.Bundle.Run
import JsonnetLocals.Proofs.Output.Requests
import JsonnetLocals.Proofs.Rename.Refile

namespace JsonnetLocals

namespace Run

variable {α β : Type} {s s' : Scene}

/-- The computation returns a value and leaves a scene. -/
def Yields (x : Run α) (s : Scene) (a : α) (s' : Scene) : Prop := x.run.run s = (.ok a, s')

theorem yields_bind {x : Run α} {f : α → Run β} {b : β} :
    (x >>= f).Yields s b s' ↔ ∃ a s₁, x.Yields s a s₁ ∧ (f a).Yields s₁ b s' := by
  unfold Yields
  rw [ExceptT.run_bind, StateT.run_bind]
  cases hx : x.run.run s with
  | mk r s₁ =>
    cases r with
    | error e =>
      refine iff_of_false ?_ ?_
      · intro h
        cases h
      · rintro ⟨a, s₂, h, -⟩
        cases h
    | ok a =>
      constructor
      · intro h
        exact ⟨a, s₁, rfl, h⟩
      · rintro ⟨a', s₂, h, h'⟩
        cases h
        exact h'

theorem yields_pure {a b : α} : (pure a : Run α).Yields s b s' ↔ b = a ∧ s' = s := by
  constructor
  · intro h
    cases h
    exact ⟨rfl, rfl⟩
  · rintro ⟨rfl, rfl⟩
    rfl

theorem yields_note_bind {rs : List Record} {f : Unit → Run β} {b : β} :
    (note rs >>= f).Yields s b s' ↔ (f ()).Yields { s with log := s.log ++ rs } b s' := Iff.rfl

theorem yields_disk_bind {f : Disk → Run β} {b : β} : (disk >>= f).Yields s b s' ↔ (f s.disk).Yields s b s' := Iff.rfl

theorem not_yields_fail {e : RunError} {a : α} : ¬ (fail e : Run α).Yields s a s' := by
  intro h
  cases h

/-- A result that was reached without the scene. -/
theorem yields_result_bind {r : Except RunError α} {f : α → Run β} {b : β} :
    (((ExceptT.mk (pure r) : Run α) >>= f : Run β)).Yields s b s' ↔ ∃ a, r = .ok a ∧ (f a).Yields s b s' := by
  cases r with
  | error e =>
    refine iff_of_false ?_ ?_
    · intro h
      cases h
    · rintro ⟨a, h, -⟩
      cases h
  | ok a =>
    constructor
    · intro h
      exact ⟨a, rfl, h⟩
    · rintro ⟨a', h, h'⟩
      cases h
      exact h'

theorem mapError_eq_ok_iff {ε ε' : Type} {r : Except ε α} {f : ε → ε'} {a : α} : r.mapError f = .ok a ↔ r = .ok a := by
  cases r <;> simp [Except.mapError]

/-- What was looked up. -/
theorem yields_lookUp_bind {r : Except FileError α} {f : α → Run β} {b : β} :
    (lookUp r >>= f).Yields s b s' ↔ ∃ a, r = .ok a ∧ (f a).Yields s b s' := by
  simp only [lookUp, yields_result_bind, mapError_eq_ok_iff]

theorem disk_of_ensureDir {cwd : Loc} {p : Path} {u : Unit} (h : (ensureDir cwd p).Yields s u s') :
    s.disk.ensureDir cwd p = (s'.disk, .ok ()) := by
  unfold ensureDir at h
  rw [yields_disk_bind] at h
  cases hmake : s.disk.ensureDir cwd p with
  | mk d' r =>
    rw [hmake] at h
    cases r with
    | error e => cases h
    | ok =>
      cases h
      rfl

/-- An output that was written was written where the layout puts it. -/
theorem step_of_write {b : Bundler} {w : Writer} {p : Path} {content : Bytes} {root : Option Path} {r : Writer × Written}
    (h : (write b w p content root).Yields s r s') :
    ∃ log, w.write s.disk b.env ⟨(w.outputPath b.env.cwd p root).1, content, some p, b.fileTime, b.faults⟩ =
      ⟨r.1, s'.disk, log, .ok r.2⟩ := by
  unfold write at h
  rw [yields_disk_bind] at h
  have hserves := Writer.serves_serve w s.disk b.env Disk.noLoops (.laidOut p content root b.fileTime b.faults)
  rw [Writer.serve] at hserves
  generalize hcall : (WriteRequest.laidOut p content root b.fileTime b.faults).call? w s.disk b.env.cwd Disk.noLoops = call?
    at hserves
  generalize w.writeFor s.disk b.env p content root b.fileTime b.faults = step at h hserves
  cases hserves with
  | lost e => cases h
  | write call log =>
    obtain rfl := Writer.eq_of_call? hcall
    dsimp only at h
    generalize w.write s.disk b.env ⟨_, content, some p, b.fileTime, b.faults⟩ = step at h ⊢
    obtain ⟨w', d', log', result⟩ := step
    cases result with
    | error e => cases h
    | ok written =>
      cases h
      exact ⟨log', rfl⟩

end Run

namespace Bundler

variable {b : Bundler} {w w' : Writer} {p : Path} {f : FileResult} {s s' : Scene}

def target (b : Bundler) (w : Writer) (p : Path) : Path := (w.outputPath b.env.cwd p b.root).1

def callFor (b : Bundler) (w : Writer) (p : Path) (content : Bytes) : WriteCall :=
  ⟨b.target w p, content, some p, b.fileTime, b.faults⟩

/-- What is reported of a file that was renamed, but where it was written. -/
structure Reports (b : Bundler) (p : Path) (x : Renamed) (f : FileResult) : Prop where
  input : f.input = p
  identity : f.identity = fileIdentity b.env.cwd p b.root
  tag : f.tag = x.tag
  names : f.names = x.names
  bindCount : f.bindCount = x.bindCount
  referenceCount : f.referenceCount = x.referenceCount
  skipped : f.skipped.map Skipped.told = x.skipped.map Skipped.told

structure Processed (b : Bundler) (w : Writer) (d : Disk) (p : Path) (f : FileResult) (w' : Writer) (d' : Disk)
    (source : Bytes) (tree : Node) (x : Renamed) (content : Bytes) (r : Written) : Prop where
  read : d.contents b.env.cwd p = .ok source
  parsed : parse p.text source = .ok tree
  renamed : (renameLocals tree source (fileIdentity b.env.cwd p b.root) b.config.separator).2 = .ok x
  rendered : b.render x (fileIdentity b.env.cwd p b.root) = .ok content
  written : (w.write d b.env (b.callFor w p content)).result = .ok r
  writer : (w.write d b.env (b.callFor w p content)).writer = w'
  disk : (w.write d b.env (b.callFor w p content)).disk = d'
  reports : Reports b p x f
  output : f.output = r.output

/-- A reading with a tree is that of a file. -/
theorem contents_of_ofFile {d : Disk} {cwd : Loc} {limit : Int} {reading : Reading} {log : List Record} {tree : Node}
    (h : Reading.ofFile d cwd limit p = .ok (reading, log)) (ht : reading.tree = some tree) :
    d.contents cwd p = .ok reading.source ∧ parse p.text reading.source = .ok tree := by
  have hfailure {source : Bytes} {message : Text} {x : Reading × List Record}
      (hx : (Except.ok (Reading.failure p source message) : Except Reading.ReadError _) = .ok x) : x.1.tree = none := by
    cases hx
    rfl
  unfold Reading.ofFile at h
  split at h
  · cases h
  · split at h
    · rw [hfailure h] at ht
      cases ht
    · split at h
      · rw [hfailure h] at ht
        cases ht
      · rename_i source hsource
        unfold Reading.ofSource at h
        dsimp only at h
        split at h
        · rename_i tree' hparse
          cases h
          cases ht
          exact ⟨hsource, hparse⟩
        · split at h
          · cases h
            cases ht
          · cases h

theorem renameLocals_of_rename {reading : Reading} {identity : Text} {x : Renamed}
    (h : (b.rename reading identity).2 = .ok x) :
    ∃ tree, reading.tree = some tree ∧ (renameLocals tree reading.source identity b.config.separator).2 = .ok x := by
  unfold rename at h
  split at h
  · cases h
  · rename_i tree htree
    refine ⟨tree, htree, ?_⟩
    cases hresult : (renameLocals tree reading.source identity b.config.separator).2 with
    | error e =>
      dsimp only at h
      rw [hresult] at h
      cases h
    | ok x =>
      dsimp only at h
      rw [hresult] at h
      cases h
      rfl

theorem processed_of_processFile {r : Writer × FileResult} (h : (b.processFile w p).Yields s r s') :
    ∃ source tree x content out, Processed b w s.disk p r.2 r.1 s'.disk source tree x content out := by
  unfold processFile at h
  dsimp only at h
  rw [Run.yields_disk_bind] at h
  split at h
  · exact absurd h Run.not_yields_fail
  · rename_i reading log hread
    rw [Run.yields_note_bind, Run.yields_note_bind, Run.yields_result_bind] at h
    obtain ⟨x, hrename, h⟩ := h
    rw [Run.yields_result_bind] at h
    obtain ⟨content, hrender, h⟩ := h
    obtain ⟨⟨w', written⟩, s₁, hwrite, h⟩ := Run.yields_bind.mp h
    obtain ⟨tree, htree, hrenamed⟩ := renameLocals_of_rename hrename
    obtain ⟨hcontents, hparse⟩ := contents_of_ofFile hread htree
    obtain ⟨log', hstep⟩ := Run.step_of_write hwrite
    have hr : r = (w', ⟨p, fileIdentity b.env.cwd p b.root, x.tag, written.output, x.names, x.bindCount, x.referenceCount,
        x.skipped, written.resolution⟩) ∧ s'.disk = s₁.disk := by
      split at h
      · cases h
        exact ⟨rfl, rfl⟩
      · cases h
        exact ⟨rfl, rfl⟩
    obtain ⟨rfl, hscene⟩ := hr
    have hwritten : w.write s.disk b.env (b.callFor w p content) = ⟨w', s'.disk, log', .ok written⟩ := by
      rw [hscene]
      exact hstep
    exact ⟨reading.source, tree, x, content, written, hcontents, hparse, hrenamed, hrender, by rw [hwritten],
      by rw [hwritten], by rw [hwritten], ⟨rfl, rfl, rfl, rfl, rfl, rfl, rfl⟩, rfl⟩

inductive Chain (b : Bundler) : Writer → Disk → List Path → List FileResult → Disk → Prop
  | nil {w : Writer} {d : Disk} : Chain b w d [] [] d
  | cons {w w' : Writer} {d d' d'' : Disk} {p : Path} {ps : List Path} {f : FileResult} {fs : List FileResult}
      {source : Bytes} {tree : Node} {x : Renamed} {content : Bytes} {r : Written} :
      Processed b w d p f w' d' source tree x content r → Chain b w' d' ps fs d'' → Chain b w d (p :: ps) (f :: fs) d''

theorem chain_of_processFrom {targets : List (Path × Path)} {ps : List Path} {result : BundleResult}
    (h : (b.processFrom w targets ps).Yields s result s') : Chain b w s.disk ps result.files s'.disk := by
  induction ps generalizing w targets s result with
  | nil =>
    obtain ⟨rfl, rfl⟩ := Run.yields_pure.mp h
    exact .nil
  | cons p ps ih =>
    unfold processFrom at h
    dsimp only at h
    rw [Run.yields_disk_bind, Run.yields_lookUp_bind] at h
    obtain ⟨_, -, h⟩ := h
    rw [Run.yields_note_bind, Run.yields_note_bind] at h
    obtain ⟨⟨w', f⟩, s₁, hfile, h⟩ := Run.yields_bind.mp h
    obtain ⟨rest, s₂, hrest, h⟩ := Run.yields_bind.mp h
    obtain ⟨rfl, rfl⟩ := Run.yields_pure.mp h
    obtain ⟨source, tree, x, content, out, hprocessed⟩ := processed_of_processFile hfile
    exact .cons hprocessed (ih hrest)

theorem refusal_of_checkInputs {d : Disk} {ps : List Path} (h : (b.checkInputs d ps).2 = none) :
    ∀ p ∈ ps, b.refusal d p = none := by
  induction ps with
  | nil => exact List.forall_mem_nil _
  | cons p ps ih =>
    unfold checkInputs at h
    split at h
    · cases h
    · rename_i hp
      exact List.forall_mem_cons.mpr ⟨hp, ih h⟩

/-- A run that returns checked its inputs, made the output directory and processed the inputs in order. -/
theorem chain_of_run {ps : List Path} {d : Disk} {scene : Scene} {result : BundleResult}
    (h : b.run ps d = (scene, .ok result)) :
    ∃ w d₀, Writer.make b.env (Path.ofText b.config.outputDir) b.config.conflictStrategy = .ok w ∧
      (∀ p ∈ ps, b.refusal d p = none) ∧ d.ensureDir b.env.cwd w.dir = (d₀, .ok ()) ∧
      Chain b w d₀ ps result.files scene.disk := by
  have hyields : (b.process ps).Yields ⟨d, [], []⟩ result scene := by
    unfold run at h
    obtain ⟨rfl, hresult⟩ := Prod.mk.inj h
    exact Prod.ext hresult rfl
  unfold process at hyields
  dsimp only at hyields
  by_cases hempty : ps.isEmpty = true
  · rw [if_pos hempty] at hyields
    obtain ⟨_, _, hfail, -⟩ := Run.yields_bind.mp hyields
    exact absurd hfail Run.not_yields_fail
  · rw [if_neg hempty, Run.yields_note_bind, Run.yields_disk_bind, Run.yields_note_bind] at hyields
    cases hcheck : (b.checkInputs d ps).2 with
    | some e =>
      rw [hcheck] at hyields
      exact absurd hyields Run.not_yields_fail
    | none =>
      rw [hcheck] at hyields
      dsimp only at hyields
      rw [Run.yields_disk_bind, Run.yields_lookUp_bind] at hyields
      obtain ⟨w, hw, hyields⟩ := hyields
      rw [Run.yields_note_bind] at hyields
      obtain ⟨_, s₁, hdir, hyields⟩ := Run.yields_bind.mp hyields
      obtain ⟨r, s₂, hfiles, hyields⟩ := Run.yields_bind.mp hyields
      rw [Run.yields_note_bind] at hyields
      obtain ⟨rfl, rfl⟩ := Run.yields_pure.mp hyields
      have hmade := Writer.make_of_makeOn (Run.mapError_eq_ok_iff.mp hw)
      have hchain := chain_of_processFrom hfiles
      exact ⟨w, s₁.disk, hmade, refusal_of_checkInputs hcheck, Run.disk_of_ensureDir hdir, hchain⟩

end Bundler

end JsonnetLocals
