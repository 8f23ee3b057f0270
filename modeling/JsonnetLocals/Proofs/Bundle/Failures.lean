/-
  JsonnetLocals.Proofs.Bundle.Failures — a run that meets a failure of the file system ends with it.

  `Bundler.IoFails` says where a run can meet one, in the terms of the disk: an input that cannot be
  taken, an output directory that cannot be looked up or made, an input that can no longer be taken when
  its turn comes, an output that cannot be looked up or written. What was done before an input's turn is
  told by `Bundler.Goes`, file by file.

  No computation looks at the log, so that a failure shows on the disk alone (`Run.Fails`); and
  nothing after a failure takes it back. The place of an output is looked up before its input is read, so a
  look-up that fails may come first, and is reported too (`Bundler.fails_first`). So the run ends with an
  error that is reported (`Bundler.IoFails.run`): a refusal, or the error of the file system.
-/

import JsonnetLocals.Proofs.Bundle.Stops

namespace JsonnetLocals

open Disk

/-- Whether the program reports the error and ends: the inputs or the file system are to blame. -/
def RunError.isReported : RunError → Bool
  | refused _ => true
  | file e => e.isOs
  | _ => false

namespace Run

variable {α β : Type} {d d₁ : Disk} {e : RunError} {x : FileError}

/-- From any scene with the disk, the computation fails with one error, which is reported. -/
def Fails (c : Run α) (d : Disk) : Prop := ∃ e, e.isReported = true ∧ ∀ s, s.disk = d → ∃ s', c.Stops s e s'

theorem fails_bind {c : Run α} (h : c.Fails d) (f : α → Run β) : (c >>= f).Fails d := by
  obtain ⟨e, he, h⟩ := h
  refine ⟨e, he, fun s hs => ?_⟩
  obtain ⟨s', hc⟩ := h s hs
  exact ⟨s', stops_bind.mpr (.inl hc)⟩

theorem Leaves.fails {c : Run α} {f : α → Run β} {a : α} (hc : c.Leaves d a d₁) (hf : (f a).Fails d₁) :
    (c >>= f).Fails d := by
  obtain ⟨e, he, hf⟩ := hf
  refine ⟨e, he, fun s hs => ?_⟩
  obtain ⟨s₁, hc, hs₁⟩ := hc s hs
  obtain ⟨s', hf⟩ := hf s₁ hs₁
  exact ⟨s', stops_bind.mpr (.inr ⟨a, s₁, hc, hf⟩)⟩

theorem fails_fail (d : Disk) (he : e.isReported = true) : (fail e : Run α).Fails d :=
  ⟨e, he, fun s _ => ⟨s, stops_fail.mpr ⟨rfl, rfl⟩⟩⟩

theorem fails_result {r : Except RunError α} (h : r = .error e) (he : e.isReported = true) :
    Fails (ExceptT.mk (pure r)) d := by
  subst h
  exact ⟨e, he, fun s _ => ⟨s, rfl⟩⟩

theorem leaves_result {r : Except RunError α} {a : α} (h : r = .ok a) : Leaves (ExceptT.mk (pure r)) d a d := by
  subst h
  intro s hs
  exact ⟨s, rfl, hs⟩

theorem fails_lookUp {r : Except FileError α} (h : r = .error x) (hx : x.isOs = true) : (lookUp r).Fails d := by
  subst h
  exact fails_result rfl hx

/-- What looks something up and then fails does so in any case. -/
theorem fails_lookUp_bind {r : Except FileError α} {f : α → Run β} (hr : ∀ x, r = .error x → x.isOs = true)
    (hf : ∀ a, (f a).Fails d) : (lookUp r >>= f).Fails d := by
  cases h : r with
  | error x => exact fails_bind (fails_lookUp rfl (hr x h)) f
  | ok a => exact (leaves_lookUp d rfl).fails (hf a)

theorem fails_ensureDir {cwd : Loc} {p : Path} (h : (d.ensureDir cwd p).2 = .error x) (hx : x.isOs = true) :
    (ensureDir cwd p).Fails d := by
  refine ⟨.file x, hx, ?_⟩
  rintro s rfl
  unfold ensureDir
  simp only [stops_disk_bind]
  generalize s.disk.ensureDir cwd p = made at h ⊢
  obtain ⟨d', r⟩ := made
  obtain rfl : r = .error x := h
  exact ⟨{ s with disk := d' }, rfl⟩

theorem isOs_of_outputFor {w : Writer} {cwd : Loc} {p : Path} {root : Option Path}
    (h : w.outputFor d cwd p root = .error x) : x.isOs = true := by
  rw [Writer.eq_noWorkingDirectory h]
  rfl

/-- An output that cannot be written is not written, also when its place cannot be looked up. -/
theorem fails_write {b : Bundler} {w : Writer} {p : Path} {content : Bytes}
    (h : (w.write d b.env (b.callFor w p content)).result = .error x) (hx : x.isOs = true) :
    (write b w p content b.root).Fails d := by
  obtain ⟨y, hy, hstep⟩ :
      ∃ y, y.isOs = true ∧ (w.writeFor d b.env p content b.root b.fileTime b.faults).result = .error y := by
    unfold Writer.writeFor
    cases hout : w.outputFor d b.env.cwd p b.root with
    | error y => exact ⟨y, isOs_of_outputFor hout, rfl⟩
    | ok out =>
      obtain rfl := Writer.eq_outputPath hout
      exact ⟨x, hx, h⟩
  refine ⟨.file y, hy, ?_⟩
  rintro s rfl
  unfold write
  simp only [stops_disk_bind]
  generalize w.writeFor s.disk b.env p content b.root b.fileTime b.faults = step at hstep ⊢
  obtain ⟨w', d', log, result⟩ := step
  obtain rfl : result = .error y := hstep
  exact ⟨⟨d', s.log ++ log, s.written ++ []⟩, rfl⟩

end Run

namespace Bundler

variable {b : Bundler} {w w₁ : Writer} {p : Path} {ps : List Path} {d d₀ d₁ : Disk} {e : RunError}

/-! ## One file -/

/-- Only what comes from the file system keeps a path from being looked up. -/
theorem isOs_of_find {cwd : Loc} {x : FileError} (h : d.find cwd p = .error x) : x.isOs = true := by
  unfold Disk.find at h
  split at h
  · cases h
  · split at h
    · cases h
    · rename_i y _ hpresent
      obtain rfl : y = x := Except.error.inj h
      cases y with
      | badPath _ => exact absurd rfl hpresent
      | _ => rfl

/-- An input that cannot be taken is refused, or cannot be looked up. -/
theorem isReported_of_refusal (h : b.refusal d p = some e) : e.isReported = true := by
  unfold refusal at h
  split at h
  · rename_i x hfind
    obtain rfl := Option.some.inj h
    exact isOs_of_find hfind
  · split at h
    · obtain rfl := Option.some.inj h
      rfl
    · split at h
      · obtain rfl := Option.some.inj h
        rfl
      · cases h
  · obtain rfl := Option.some.inj h
    rfl

/-- An input that cannot be taken when its turn comes has no reading, or one without a tree. -/
theorem ofFile_of_not_accepts (h : ¬ b.Accepts d p) :
    (∃ x, Reading.ofFile d b.env.cwd b.limit p = .error (.file x) ∧ x.isOs = true) ∨
      ∃ reading log, Reading.ofFile d b.env.cwd b.limit p = .ok (reading, log) ∧ reading.tree = none := by
  unfold Reading.ofFile
  cases hfind : d.find b.env.cwd p with
  | error x => exact .inl ⟨x, rfl, isOs_of_find hfind⟩
  | ok entry =>
    right
    dsimp only
    cases hrefusal : Reading.refusal d b.env.cwd b.limit p entry with
    | some message => exact ⟨_, _, rfl, rfl⟩
    | none =>
      dsimp only
      cases hcontents : d.contents b.env.cwd p with
      | error x => exact ⟨_, _, rfl, rfl⟩
      | ok source =>
        -- then the input could be taken
        obtain ⟨l, hl, hfile⟩ := contents_eq_ok_iff.mp hcontents
        have hfound := find_eq_some_iff.mpr (stat_eq_ok_iff.mpr ⟨l, hl, fileAt_eq_some_iff.mp hfile⟩)
        obtain rfl : entry = some (fileOf source) := Except.ok.inj (hfind.symm.trans hfound)
        unfold Reading.refusal at hrefusal
        dsimp only at hrefusal
        split at hrefusal
        · cases hrefusal
        · rename_i hdenied
          split at hrefusal
          · cases hrefusal
          · rename_i hlarge
            exact absurd ⟨source, hcontents, Bool.eq_false_iff.mpr hdenied, Bool.eq_false_iff.mpr hlarge⟩ h

/-- The input is read from the disk and renamed, and this is its output. -/
structure Renders (b : Bundler) (d : Disk) (p : Path) (content : Bytes) : Prop where
  accepts : b.Accepts d p
  exists_renamed : ∃ source tree x, d.contents b.env.cwd p = .ok source ∧ parse p.text source = .ok tree ∧
    (renameLocals tree source (fileIdentity b.env.cwd p b.root) b.config.separator).2 = .ok x ∧
    b.render x (fileIdentity b.env.cwd p b.root) = .ok content

theorem fails_read (h : ¬ b.Accepts d p) (w : Writer) : (b.processFile w p).Fails d := by
  refine Run.Leaves.fails (Run.leaves_disk d) ?_
  rcases ofFile_of_not_accepts h with ⟨x, hread, hos⟩ | ⟨reading, log, hread, htree⟩
  · rw [hread]
    exact Run.fails_fail d hos
  · obtain ⟨r, hrename⟩ : ∃ r, (b.rename reading (fileIdentity b.env.cwd p b.root)).2 = .error (.refused r) := by
      unfold rename
      rw [htree]
      exact ⟨_, rfl⟩
    rw [hread]
    refine Run.Leaves.fails (Run.leaves_note d _) (Run.Leaves.fails (Run.leaves_note d _) ?_)
    exact Run.fails_bind (Run.fails_result hrename rfl) _

theorem fails_writeOutput {content : Bytes} {x : FileError} (h : b.Renders d p content)
    (hw : (w.write d b.env (b.callFor w p content)).result = .error x) (hx : x.isOs = true) :
    (b.processFile w p).Fails d := by
  obtain ⟨source, tree, renamed, hcontents, hparse, hrenamed, hrender⟩ := h.exists_renamed
  have hread := ofFile_of_accepts h.accepts hcontents
  rw [Reading.ofSource, hparse] at hread
  have hrename : (b.rename ⟨some tree, source, Path.ofText p.text, []⟩ (fileIdentity b.env.cwd p b.root)).2 =
      .ok renamed := by
    unfold rename
    dsimp only
    rw [hrenamed]
  refine Run.Leaves.fails (Run.leaves_disk d) ?_
  rw [hread]
  refine Run.Leaves.fails (Run.leaves_note d _) (Run.Leaves.fails (Run.leaves_note d _) ?_)
  refine Run.Leaves.fails (Run.leaves_result hrename) (Run.Leaves.fails (Run.leaves_result hrender) ?_)
  exact Run.fails_bind (Run.fails_write hw hx) _

/-! ## All files -/

/-- The inputs were processed one after another, each on the disk that the one before left. -/
inductive Goes (b : Bundler) : Writer → Disk → List Path → Writer → Disk → Prop
  | nil {w : Writer} {d : Disk} : Goes b w d [] w d
  | cons {w w₁ w' : Writer} {d d₁ d' : Disk} {p : Path} {ps : List Path} {f : FileResult} :
      (b.processFile w p).Leaves d (w₁, f) d₁ → Goes b w₁ d₁ ps w' d' → Goes b w d (p :: ps) w' d'

/-- Processing fails with the first of its files, also when the place of its output cannot be looked up. -/
theorem fails_first (hp : (b.processFile w p).Fails d) (targets : List (Path × Path)) (ps : List Path) :
    (b.processFrom w targets (p :: ps)).Fails d := by
  unfold processFrom
  refine Run.Leaves.fails (Run.leaves_disk d) (Run.fails_lookUp_bind (fun _ => Run.isOs_of_outputFor) fun out => ?_)
  exact Run.Leaves.fails (Run.leaves_note _ _) (Run.Leaves.fails (Run.leaves_note _ _) (Run.fails_bind hp _))

/-- Processing that fails from an input on, whatever inputs were met before, fails. -/
theorem Goes.fails {before after : List Path} (h : Goes b w d before w₁ d₁)
    (hp : ∀ targets, (b.processFrom w₁ targets (p :: after)).Fails d₁) (targets : List (Path × Path)) :
    (b.processFrom w targets (before ++ p :: after)).Fails d := by
  induction h generalizing targets with
  | nil => exact hp targets
  | @cons w _ _ d _ _ _ _ _ hfile _ ih =>
    rw [List.cons_append]
    unfold processFrom
    refine Run.Leaves.fails (Run.leaves_disk d) (Run.fails_lookUp_bind (fun _ => Run.isOs_of_outputFor) fun out => ?_)
    refine Run.Leaves.fails (Run.leaves_note _ _) (Run.Leaves.fails (Run.leaves_note _ _) ?_)
    exact Run.Leaves.fails hfile (Run.fails_bind (ih hp _) _)

/-- The run takes all its inputs, makes the output directory and comes to an input, with the writer and the disk that
    the inputs before it left. -/
structure ComesTo (b : Bundler) (ps : List Path) (d : Disk) (p : Path) (w₁ : Writer) (d₁ : Disk) : Prop where
  accepts : ∀ q ∈ ps, b.Accepts d q
  exists_before : ∃ before after w d₀, ps = before ++ p :: after ∧
    Writer.make b.env (Path.ofText b.config.outputDir) b.config.conflictStrategy = .ok w ∧
    d.ensureDir b.env.cwd w.dir = (d₀, .ok ()) ∧ Goes b w d₀ before w₁ d₁

/-- Where a run meets a failure of the file system. -/
inductive IoFails (b : Bundler) (ps : List Path) (d : Disk) : Prop
  /-- An input is not there, is denied or is too large. -/
  | input {p : Path} : p ∈ ps → ¬ b.Accepts d p → IoFails b ps d
  /-- The output directory cannot be made. -/
  | directory {w : Writer} {x : FileError} : (∀ p ∈ ps, b.Accepts d p) → ps ≠ [] →
      Writer.make b.env (Path.ofText b.config.outputDir) b.config.conflictStrategy = .ok w →
      (d.ensureDir b.env.cwd w.dir).2 = .error x → x.isOs = true → IoFails b ps d
  /-- The place of the output directory cannot be looked up. -/
  | directoryPlace {x : PathError} : (∀ p ∈ ps, b.Accepts d p) → ps ≠ [] →
      Writer.makeOn d b.env (Path.ofText b.config.outputDir) b.config.conflictStrategy = .error x →
      (FileError.badPath x).isOs = true → IoFails b ps d
  /-- The place of an output cannot be looked up. -/
  | outputPlace {p : Path} {w : Writer} {d₁ : Disk} {x : FileError} : ComesTo b ps d p w d₁ →
      w.outputFor d₁ b.env.cwd p b.root = .error x → IoFails b ps d
  /-- An input can no longer be taken when its turn comes. -/
  | read {p : Path} {w : Writer} {d₁ : Disk} : ComesTo b ps d p w d₁ → ¬ b.Accepts d₁ p → IoFails b ps d
  /-- An output cannot be written. -/
  | write {p : Path} {w : Writer} {d₁ : Disk} {content : Bytes} {x : FileError} : ComesTo b ps d p w d₁ →
      b.Renders d₁ p content → (w.write d₁ b.env (b.callFor w p content)).result = .error x → x.isOs = true →
      IoFails b ps d

theorem run_of_fails (h : (b.process ps).Fails d) : ∃ scene e, b.run ps d = (scene, .error e) ∧ e.isReported = true := by
  obtain ⟨e, he, h⟩ := h
  obtain ⟨scene, hstops⟩ := h ⟨d, [], []⟩ rfl
  refine ⟨scene, e, ?_, he⟩
  unfold run
  unfold Run.Stops at hstops
  rw [hstops]

theorem fails_check (hne : ps ≠ []) (h : (b.checkInputs d ps).2 = some e) (he : e.isReported = true) :
    (b.process ps).Fails d := by
  unfold process
  dsimp only
  rw [if_neg (by simpa using hne)]
  refine Run.Leaves.fails (Run.leaves_note d _) (Run.Leaves.fails (Run.leaves_disk d) ?_)
  refine Run.Leaves.fails (Run.leaves_note d _) ?_
  rw [h]
  exact Run.fails_fail d he

/-- Once the inputs are taken, what is left is the output directory and the files. -/
theorem fails_process (hne : ps ≠ []) (hps : ∀ p ∈ ps, b.Accepts d p)
    (hplace : ∀ x, Writer.makeOn d b.env (Path.ofText b.config.outputDir) b.config.conflictStrategy = .error x →
      (FileError.badPath x).isOs = true)
    (h : ∀ w, Writer.makeOn d b.env (Path.ofText b.config.outputDir) b.config.conflictStrategy = .ok w →
      (Run.ensureDir b.env.cwd w.dir >>= fun _ => b.processFrom w [] ps).Fails d) :
    (b.process ps).Fails d := by
  unfold process
  dsimp only
  rw [if_neg (by simpa using hne)]
  refine Run.Leaves.fails (Run.leaves_note d _) (Run.Leaves.fails (Run.leaves_disk d) ?_)
  refine Run.Leaves.fails (Run.leaves_note d _) ?_
  rw [checkInputs_eq_none hps]
  refine Run.Leaves.fails (Run.leaves_disk d) ?_
  cases hw : Writer.makeOn d b.env (Path.ofText b.config.outputDir) b.config.conflictStrategy with
  | error x => exact Run.fails_bind (Run.fails_lookUp rfl (hplace x hw)) _
  | ok w =>
    refine Run.Leaves.fails (Run.leaves_lookUp d rfl) (Run.Leaves.fails (Run.leaves_note d _) ?_)
    rw [← bind_assoc]
    exact Run.fails_bind (h w hw) _

/-- A writer can be made where its place can be looked up, and only a working directory that is gone keeps that from
    being. -/
theorem isOs_of_makeOn {x : PathError}
    (hw : Writer.make b.env (Path.ofText b.config.outputDir) b.config.conflictStrategy = .ok w)
    (h : Writer.makeOn d b.env (Path.ofText b.config.outputDir) b.config.conflictStrategy = .error x) :
    (FileError.badPath x).isOs = true := by
  unfold Writer.make at hw
  unfold Writer.makeOn at h
  cases hq : (Path.ofText b.config.outputDir).normalize b.env with
  | error y =>
    rw [hq] at hw
    cases hw
  | ok q =>
    cases hn : d.normalize b.env (Path.ofText b.config.outputDir) with
    | error y =>
      rw [hn] at h
      obtain rfl := Except.error.inj h
      rw [eq_noWorkingDirectory hq hn]
      rfl
    | ok _ =>
      rw [hn] at h
      cases h

theorem fails_of_make (hne : ps ≠ []) (hps : ∀ p ∈ ps, b.Accepts d p)
    (hw : Writer.make b.env (Path.ofText b.config.outputDir) b.config.conflictStrategy = .ok w)
    (h : (Run.ensureDir b.env.cwd w.dir >>= fun _ => b.processFrom w [] ps).Fails d) : (b.process ps).Fails d := by
  refine fails_process hne hps (fun x => isOs_of_makeOn hw) fun w' hw' => ?_
  obtain rfl : w' = w := Except.ok.inj ((Writer.make_of_makeOn hw').symm.trans hw)
  exact h

theorem ComesTo.fails {d₁ : Disk} (h : ComesTo b ps d p w₁ d₁)
    (hp : ∀ targets after, (b.processFrom w₁ targets (p :: after)).Fails d₁) : (b.process ps).Fails d := by
  obtain ⟨before, after, w, d₀, rfl, hw, hdir, hgoes⟩ := h.exists_before
  refine fails_of_make (by simp) h.accepts hw ?_
  exact Run.Leaves.fails (Run.leaves_ensureDir hdir) (hgoes.fails (fun targets => hp targets after) [])

/-- A run that meets a failure of the file system ends with an error that is reported. -/
theorem IoFails.run (h : b.IoFails ps d) : ∃ scene e, b.run ps d = (scene, .error e) ∧ e.isReported = true := by
  refine run_of_fails ?_
  cases h with
  | input hp hnot =>
    obtain ⟨e, hcheck⟩ : ∃ e, (b.checkInputs d ps).2 = some e := by
      rw [← Option.ne_none_iff_exists']
      intro hnone
      exact hnot (refusal_eq_none_iff.mp (refusal_of_checkInputs hnone _ hp))
    obtain ⟨before, q, -, hrefusal⟩ := first_of_checkInputs hcheck
    exact fails_check (List.ne_nil_of_mem hp) hcheck (isReported_of_refusal hrefusal)
  | directory hps hne hw hdir hos => exact fails_of_make hne hps hw (Run.fails_bind (Run.fails_ensureDir hdir hos) _)
  | directoryPlace hps hne hplace hos =>
    refine fails_process hne hps (fun x hx => ?_) fun w hw => ?_
    · rw [hplace] at hx
      rwa [← Except.error.inj hx]
    · rw [hplace] at hw
      cases hw
  | outputPlace hcomes hplace =>
    refine hcomes.fails fun targets after => ?_
    unfold processFrom
    exact Run.Leaves.fails (Run.leaves_disk _) (Run.fails_bind (Run.fails_lookUp hplace (Run.isOs_of_outputFor hplace)) _)
  | read hcomes hnot => exact hcomes.fails fun targets after => fails_first (fails_read hnot _) targets after
  | write hcomes hrenders hwrite hos =>
    exact hcomes.fails fun targets after => fails_first (fails_writeOutput hrenders hwrite hos) targets after

end Bundler

end JsonnetLocals
