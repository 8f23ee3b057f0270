/-
  JsonnetLocals.Proofs.Bundle.Faithful — what a run leaves is what its inputs say.

  A run is faithful (`Bundler.Faithful`) when every output holds what renaming and rendering the bytes of
  its input gives, every report is that of renaming, and no other file is touched. Reads and writes
  alternate, so each input has to be as it was when its turn comes: `Bundler.Ready` is what holds before
  the inputs that are left, one file keeps it (`Bundler.Ready.next`), and with it a run of any length is
  faithful (`Bundler.Ready.faithful`).

  When the targets are apart from each other, from the inputs and from the directories that were there,
  one thing can still go wrong: a target can be the output directory itself, which the run makes. When
  overwriting, the output is then lost in that directory (`Bundler.run_faithful_iff`,
  `Bundler.run_into_output_directory`).
-/

import JsonnetLocals.Proofs.Bundle.Steps
import JsonnetLocals.Proofs.Output.Requests

namespace JsonnetLocals

open Disk

namespace Bundler

variable {b : Bundler} {w w' : Writer} {d d' : Disk} {p : Path} {ps : List Path} {f : FileResult}
  {fs : List FileResult} {source content : Bytes} {tree : Node} {x : Renamed} {r : Written}

/-! ## Targets -/

theorem target_congr (h : w'.dir = w.dir) (p : Path) : b.target w' p = b.target w p := by
  unfold target Writer.outputPath
  rw [h]

/-- A target is an absolute path. -/
theorem target_absolute (henv : b.env.Proper) (hdir : w.dir.Settled) (hp : p.Proper) :
    (b.target w p).anchor = .absolute ∧ (b.target w p).Proper :=
  Writer.outputPath_absolute henv hdir hp b.root

theorem callFor_absolute (henv : b.env.Proper) (hdir : w.dir.Settled) (hp : p.Proper) (content : Bytes) :
    (b.callFor w p content).target.anchor = .absolute ∧ (b.callFor w p content).target.Proper :=
  target_absolute henv hdir hp

def goal (b : Bundler) (w : Writer) (p : Path) : Loc := (b.target w p).place b.env.cwd

/-! ## One file -/

namespace Processed

variable (henv : b.env.Proper) (hdir : w.dir.Settled) (hp : p.Proper)
  (h : Processed b w d p f w' d' source tree x content r)

include henv hdir hp h

theorem dir_eq : w'.dir = w.dir := by
  rw [← h.writer, Writer.dir_write henv (target_absolute henv hdir hp).2]

theorem strategy_eq : w'.strategy = w.strategy := by
  rw [← h.writer, Writer.strategy_write henv (target_absolute henv hdir hp).2]

theorem tree_after (hd : d.Tree) : d'.Tree := by
  rw [← h.disk]
  exact Writer.tree_write w henv (target_absolute henv hdir hp).2 hd

theorem dir_kept {k : Loc} (hk : d.get? k = some .dir) : d'.get? k = some .dir := by
  rw [← h.disk]
  exact Writer.dir_kept_write henv (target_absolute henv hdir hp).2 hk

theorem prefix_of_new_dir {k : Loc} (hnot : d.get? k ≠ some .dir) (hk : d'.get? k = some .dir) :
    k <+: (b.goal w p).dropLast := by
  rw [← h.disk] at hk
  obtain ⟨habs, hproper⟩ := callFor_absolute henv hdir hp content
  exact Writer.prefix_of_new_dir_write henv hproper habs hnot hk

/-- Reading a file gives what it gave, unless it was the target of a writer that overwrites. -/
theorem contents_kept (hd : d.Tree) {q : Path} {data : Bytes} (hq : d.contents b.env.cwd q = .ok data)
    (hne : w.strategy = .overwrite → q.place b.env.cwd ≠ b.goal w p) : d'.contents b.env.cwd q = .ok data := by
  obtain ⟨habs, hproper⟩ := callFor_absolute henv hdir hp content
  obtain ⟨l, hl, hfile⟩ := contents_eq_ok_iff.mp hq
  refine contents_eq_ok_iff.mpr ⟨l, locate_mono (fun k => h.dir_kept henv hdir hp) hl, ?_⟩
  rw [← locate_eq_place henv hl] at hne
  rw [← h.disk]
  exact Writer.fileAt_write henv hproper habs hd hfile hne

theorem wrote (hd : d.Tree) (hnot : w.strategy = .overwrite → d.get? (b.goal w p) ≠ some .dir) :
    match f.output with
    | some q => Wrote d d' b.env.cwd q content
    | none => d' = d := by
  obtain ⟨habs, hproper⟩ := callFor_absolute henv hdir hp content
  rw [h.output, ← h.disk]
  exact Writer.wrote_write henv hproper habs hd hnot h.written

theorem output_eq (hs : w.strategy = .overwrite) : ∃ q, f.output = some q ∧ q.place b.env.cwd = b.goal w p := by
  obtain ⟨habs, hproper⟩ := callFor_absolute henv hdir hp content
  rw [h.output]
  exact Writer.output_write henv hproper habs hs h.written

end Processed

/-- Reading the same bytes without a file and renaming them gives the same outcome, but for the file in the reports. -/
theorem renameSource_eq {identity name : Text} (hparse : parse name source = .ok tree)
    (hrename : (renameLocals tree source identity b.config.separator).2 = .ok x) :
    ∃ log, b.renameSource source identity "" = (log, .ok (x.toFile identity)) := by
  have hparse' := parse_toFile identity hparse
  have hrename' : (renameLocals (tree.relocate (.toFile identity)) source identity b.config.separator).2 =
      .ok (x.toFile identity) := by
    rw [renameLocals_toFile, hrename]
    rfl
  have hname : (if ("" : Text) = "" then identity else "") = identity := if_pos rfl
  unfold renameSource Reading.ofSource rename
  rw [hname, hparse']
  dsimp only
  rw [hrename']
  exact ⟨_, rfl⟩

/-- The outcome for an input is that of renaming its bytes, and its output holds the rendered code. -/
def Bundled (b : Bundler) (d d' : Disk) (p : Path) (f : FileResult) : Prop :=
  ∃ source log x content, d.contents b.env.cwd p = .ok source ∧
    b.renameSource source (fileIdentity b.env.cwd p b.root) "" = (log, .ok x) ∧
    b.render x (fileIdentity b.env.cwd p b.root) = .ok content ∧ Reports b p x f ∧
    ∀ q, f.output = some q → d'.contents b.env.cwd q = .ok content

theorem Processed.bundled (h : Processed b w d p f w' d' source tree x content r) {start last : Disk}
    (hread : start.contents b.env.cwd p = .ok source)
    (hlast : ∀ q, f.output = some q → last.contents b.env.cwd q = .ok content) : Bundled b start last p f := by
  obtain ⟨log, hsource⟩ := renameSource_eq h.parsed h.renamed
  refine ⟨source, log, _, content, hread, hsource, h.rendered, ?_, hlast⟩
  obtain ⟨hinput, hidentity, htag, hnames, hbinds, hrefs, hskipped⟩ := h.reports
  refine ⟨hinput, hidentity, htag, hnames, hbinds, hrefs, ?_⟩
  simp only [hskipped, Renamed.toFile, List.map_map, Function.comp_def, Skipped.told_toFile]

/-! ## All files -/

theorem goal_congr (h : w'.dir = w.dir) : b.goal w' = b.goal w := by
  funext p
  rw [goal, goal, target_congr h]

namespace Chain

variable (henv : b.env.Proper)

include henv

theorem contents_kept (h : Chain b w d ps fs d') (hdir : w.dir.Settled) (hps : ∀ p ∈ ps, p.Proper) (hd : d.Tree)
    {q : Path} {data : Bytes} (hq : d.contents b.env.cwd q = .ok data)
    (hne : w.strategy = .overwrite → ∀ p ∈ ps, q.place b.env.cwd ≠ b.goal w p) :
    d'.contents b.env.cwd q = .ok data := by
  induction h with
  | nil => exact hq
  | cons hfile _ ih =>
    rw [List.forall_mem_cons] at hps
    have hsame := hfile.dir_eq henv hdir hps.1
    have hkept := hfile.contents_kept henv hdir hps.1 hd hq fun hs => hne hs _ List.mem_cons_self
    refine ih (hsame ▸ hdir) hps.2 (hfile.tree_after henv hdir hps.1 hd) hkept ?_
    rw [hfile.strategy_eq henv hdir hps.1, goal_congr hsame]
    exact fun hs p hp => hne hs p (List.mem_cons_of_mem _ hp)

theorem dir_kept (h : Chain b w d ps fs d') (hdir : w.dir.Settled) (hps : ∀ p ∈ ps, p.Proper) {k : Loc}
    (hk : d.get? k = some .dir) : d'.get? k = some .dir := by
  induction h with
  | nil => exact hk
  | cons hfile _ ih =>
    rw [List.forall_mem_cons] at hps
    exact ih (hfile.dir_eq henv hdir hps.1 ▸ hdir) hps.2 (hfile.dir_kept henv hdir hps.1 hk)

/-- When overwriting, every output is a target. -/
theorem outputs (h : Chain b w d ps fs d') (hdir : w.dir.Settled) (hps : ∀ p ∈ ps, p.Proper)
    (hs : w.strategy = .overwrite) :
    List.Forall₂ (fun p f => ∃ q, f.output = some q ∧ q.place b.env.cwd = b.goal w p) ps fs := by
  induction h with
  | nil => exact .nil
  | cons hfile _ ih =>
    rw [List.forall_mem_cons] at hps
    have hsame := hfile.dir_eq henv hdir hps.1
    have hrest := ih (hsame ▸ hdir) hps.2 ((hfile.strategy_eq henv hdir hps.1).trans hs)
    rw [goal_congr hsame] at hrest
    exact .cons (hfile.output_eq henv hdir hps.1 hs) hrest

end Chain

/-- What holds of the disk `d` before the inputs that are left, in a run that began with `start`. -/
structure Ready (b : Bundler) (start : Disk) (w : Writer) (d : Disk) (ps : List Path) : Prop where
  dir : w.dir.Settled
  tree : d.Tree
  proper : ∀ p ∈ ps, p.Proper
  apart : (ps.map (b.goal w)).Nodup
  above : ∀ p ∈ ps, ∀ q ∈ ps, b.goal w p <+: b.goal w q → b.goal w p = b.goal w q
  inputs : ∀ p ∈ ps, ∀ q ∈ ps, b.goal w p ≠ q.place b.env.cwd
  free : w.strategy = .overwrite → ∀ p ∈ ps, d.get? (b.goal w p) ≠ some .dir
  reads : ∀ p ∈ ps, ∃ data, start.contents b.env.cwd p = .ok data ∧ d.contents b.env.cwd p = .ok data

namespace Ready

variable {start : Disk}

/-- Processing one file leaves the disk ready for the others. -/
theorem next (henv : b.env.Proper) (h : Ready b start w d (p :: ps))
    (hfile : Processed b w d p f w' d' source tree x content r) : Ready b start w' d' ps := by
  have hp := h.proper p List.mem_cons_self
  have hsame := hfile.dir_eq henv h.dir hp
  have hgoal := goal_congr (b := b) hsame
  have hapart := List.nodup_cons.mp h.apart
  have hmem {q : Path} (hq : q ∈ ps) : q ∈ p :: ps := List.mem_cons_of_mem p hq
  constructor
  · exact hsame ▸ h.dir
  · exact hfile.tree_after henv h.dir hp h.tree
  · exact fun q hq => h.proper q (hmem hq)
  · rw [hgoal]
    exact hapart.2
  · rw [hgoal]
    exact fun q hq q' hq' => h.above q (hmem hq) q' (hmem hq')
  · rw [hgoal]
    exact fun q hq q' hq' => h.inputs q (hmem hq) q' (hmem hq')
  · rw [hfile.strategy_eq henv h.dir hp, hgoal]
    intro hs q hq hdir
    -- a new directory is above the target of this file, which is another target
    have hle := hfile.prefix_of_new_dir henv h.dir hp (h.free hs q (hmem hq)) hdir
    have heq := h.above q (hmem hq) p List.mem_cons_self (hle.trans (List.dropLast_prefix _))
    exact hapart.1 (heq ▸ List.mem_map_of_mem hq)
  · intro q hq
    obtain ⟨data, hstart, hread⟩ := h.reads q (hmem hq)
    refine ⟨data, hstart, hfile.contents_kept henv h.dir hp h.tree hread fun _ => ?_⟩
    exact (h.inputs p List.mem_cons_self q (hmem hq)).symm

/-- A run over inputs that it is ready for does what they say. -/
theorem faithful (henv : b.env.Proper) (h : Ready b start w d ps) (hchain : Chain b w d ps fs d') :
    List.Forall₂ (Bundled b start d') ps fs ∧
      ∀ l, (∀ q ∈ fs.filterMap (·.output), q.place b.env.cwd ≠ l) → d'.fileAt l = d.fileAt l := by
  induction hchain with
  | nil => exact ⟨.nil, fun _ _ => rfl⟩
  | @cons w w' d d₁ d' p ps f fs source tree x content r hfile hrest ih =>
    have hp := h.proper p List.mem_cons_self
    have hnext := h.next henv hfile
    obtain ⟨hfiles, hother⟩ := ih hnext
    have hwrote := hfile.wrote henv h.dir hp h.tree fun hs => h.free hs p List.mem_cons_self
    obtain ⟨data, hstart, hread⟩ := h.reads p List.mem_cons_self
    obtain rfl : data = source := Except.ok.inj (hread.symm.trans hfile.read)
    constructor
    · refine .cons (hfile.bundled hstart fun q hq => ?_) hfiles
      rw [hq] at hwrote
      refine hrest.contents_kept henv hnext.dir hnext.proper hnext.tree hwrote.holds ?_
      rw [hfile.strategy_eq henv h.dir hp, goal_congr (hfile.dir_eq henv h.dir hp)]
      intro hs q' hq' heq
      obtain ⟨q₀, hq₀, hplace⟩ := hfile.output_eq henv h.dir hp hs
      obtain rfl : q₀ = q := Option.some.inj (hq₀.symm.trans hq)
      rw [hplace] at heq
      exact (List.nodup_cons.mp h.apart).1 (heq ▸ List.mem_map_of_mem hq')
    · intro l hl
      have hlater := hother l fun q hq => hl q (by
        obtain ⟨g, hg, hout⟩ := List.mem_filterMap.mp hq
        exact List.mem_filterMap.mpr ⟨g, List.mem_cons_of_mem f hg, hout⟩)
      rw [hlater]
      cases hout : f.output with
      | none =>
        rw [hout] at hwrote
        rw [hwrote]
      | some q =>
        rw [hout] at hwrote
        refine hwrote.rest l fun heq => hl q ?_ heq.symm
        exact List.mem_filterMap.mpr ⟨f, List.mem_cons_self, hout⟩

end Ready

/-! ## Runs -/

/-- The targets are different places, and none is an input, a directory that is there or above another target. -/
structure Apart (b : Bundler) (w : Writer) (d : Disk) (ps : List Path) : Prop where
  distinct : (ps.map (b.goal w)).Nodup
  inputs : ∀ p ∈ ps, ∀ q ∈ ps, b.goal w p ≠ q.place b.env.cwd
  dirs : ∀ p ∈ ps, d.get? (b.goal w p) ≠ some .dir
  above : ∀ p ∈ ps, ∀ q ∈ ps, b.goal w p <+: b.goal w q → b.goal w p = b.goal w q

/-- The disk `d'` and the result are what the inputs and the disk `d` say. -/
structure Faithful (b : Bundler) (d d' : Disk) (ps : List Path) (result : BundleResult) : Prop where
  /-- In the order of the inputs. -/
  files : List.Forall₂ (Bundled b d d') ps result.files
  /-- No file but the outputs is changed, made or removed. -/
  rest : ∀ l, (∀ q ∈ result.writtenFiles, q.place b.env.cwd ≠ l) → d'.fileAt l = d.fileAt l

theorem exists_contents_of_refusal (h : b.refusal d p = none) : ∃ data, d.contents b.env.cwd p = .ok data := by
  unfold refusal at h
  split at h
  · cases h
  · rename_i data hfind
    have hstat := find_eq_some_iff.mp hfind
    unfold Disk.contents
    rw [hstat]
    exact ⟨_, rfl⟩
  · cases h

/-- A run that returns, with its targets apart, is faithful unless it overwrites and a target is the output directory
    or above it. -/
theorem run_faithful_iff (henv : b.env.Proper) (hd : d.Tree) (hps : ∀ p ∈ ps, p.Proper)
    (hw : Writer.make b.env (Path.ofText b.config.outputDir) b.config.conflictStrategy = .ok w) (hapart : Apart b w d ps)
    {scene : Scene} {result : BundleResult} (hrun : b.run ps d = (scene, .ok result)) :
    Faithful b d scene.disk ps result ↔
      ¬ (b.config.conflictStrategy = .overwrite ∧ ∃ p ∈ ps, b.goal w p <+: w.dir.place b.env.cwd) := by
  obtain ⟨w', d₀, hw', hinputs, hmake, hchain⟩ := chain_of_run hrun
  obtain rfl : w = w' := Except.ok.inj (hw.symm.trans hw')
  have hwriter : w.dir.Settled ∧ w.strategy = b.config.conflictStrategy := by
    unfold Writer.make at hw
    cases hn : (Path.ofText b.config.outputDir).normalize b.env with
    | error e => rw [hn] at hw; cases hw
    | ok dir =>
      rw [hn] at hw
      obtain rfl := Except.ok.inj hw
      exact ⟨Path.settled_normalize henv (Path.proper_ofText _) hn, rfl⟩
  obtain ⟨hdir, hstrategy⟩ := hwriter
  have hmade := made_ensureDir hdir hmake
  rw [← hstrategy]
  constructor
  · -- the output is a directory to the end
    rintro ⟨hfiles, -⟩ ⟨hs, p, hp, hle⟩
    have hgoal := hchain.dir_kept henv hdir hps (hmade.opens rfl _ hle)
    obtain ⟨i, hi, rfl⟩ := List.getElem_of_mem hp
    obtain ⟨q, hq, hplace⟩ := (hchain.outputs henv hdir hps hs).get hi (hfiles.length_eq ▸ hi)
    obtain ⟨_, _, _, content, _, _, _, _, hholds⟩ := hfiles.get hi (hfiles.length_eq ▸ hi)
    obtain ⟨l, hl, hfile⟩ := contents_eq_ok_iff.mp (hholds q hq)
    rw [locate_eq_place henv hl, hplace, List.get_eq_getElem, fileAt, hgoal] at hfile
    cases hfile
  · intro hnot
    have hready : Ready b d w d₀ ps := by
      refine ⟨hdir, hmade.tree hd, hps, hapart.distinct, hapart.above, hapart.inputs, ?_, ?_⟩
      · intro hs p hp hgoal
        rcases hmade.way (b.goal w p) with heq | ⟨-, -, hle⟩
        · exact hapart.dirs p hp (heq.symm.trans hgoal)
        · exact hnot ⟨hs, p, hp, hle⟩
      · intro p hp
        obtain ⟨data, hdata⟩ := exists_contents_of_refusal (hinputs p hp)
        exact ⟨data, hdata, hmade.way.keeps.contents hdata⟩
    obtain ⟨hfiles, hrest⟩ := hready.faithful henv hchain
    exact ⟨hfiles, fun l hl => (hrest l hl).trans (hmade.way.fileAt_eq l)⟩

def intoOut (root : Option Text) : Bundler :=
  ⟨⟨"default", "out", "_", false, .overwrite, root, "INFO"⟩, Writer.atTop, Reading.defaultLimit,
    .ok ⟨⟨2024, 5, 1, 12, 30, 0⟩, some 0⟩, ⟨2024, 5, 1, 12, 30, 0⟩, .none⟩

def toOut : Writer := Writer.start ⟨.absolute, ["out"]⟩ .overwrite

def withSource : Disk := ⟨[(["a.jsonnet"], fileOf (Utf8.encode "local x = 1; 2\n"))], []⟩

theorem apart_intoOut {root : Option Text} {l : Loc} (hl : (intoOut root).goal toOut (Path.ofText "a.jsonnet") = l)
    (hinput : l ≠ ["a.jsonnet"]) (hfree : withSource.get? l = none) :
    Apart (intoOut root) toOut withSource [Path.ofText "a.jsonnet"] := by
  constructor
  · exact List.nodup_singleton _
  all_goals simp only [List.mem_singleton, forall_eq, hl]
  · exact hinput
  · simp [hfree]
  · simp

theorem run_faithful_below_out :
    ∃ scene result, (intoOut none).run [Path.ofText "a.jsonnet"] withSource = (scene, .ok result) ∧
      Faithful (intoOut none) withSource scene.disk [Path.ofText "a.jsonnet"] result := by
  have hok : ((intoOut none).run [Path.ofText "a.jsonnet"] withSource).2.isOk = true := by decide +kernel
  have hapart : Apart (intoOut none) toOut withSource [Path.ofText "a.jsonnet"] :=
    apart_intoOut (l := ["out", "a.jsonnet"]) rfl (by decide) rfl
  rcases hrun : (intoOut none).run [Path.ofText "a.jsonnet"] withSource with ⟨scene, _ | result⟩
  · rw [hrun] at hok
    cases hok
  · refine ⟨scene, result, rfl, (run_faithful_iff Writer.proper_atTop (by decide) ?_ rfl hapart hrun).mpr ?_⟩
    · exact List.forall_mem_singleton.mpr (Path.proper_ofText _)
    · rintro ⟨-, p, hp, hle⟩
      obtain rfl := List.mem_singleton.mp hp
      have hle : (["out", "a.jsonnet"] : Loc) <+: ["out"] := hle
      exact absurd hle (by decide)

/-- When the root of the project is the only input, its target is the output directory, which is not there before the
    run: the report names it, and the code is in a file with the name of a temporary one. -/
theorem run_into_output_directory :
    Apart (intoOut (some "a.jsonnet")) toOut withSource [Path.ofText "a.jsonnet"] ∧
      ∃ scene result, (intoOut (some "a.jsonnet")).run [Path.ofText "a.jsonnet"] withSource = (scene, .ok result) ∧
        result.writtenFiles = [⟨.absolute, ["out"]⟩] ∧
        scene.disk.fileAt ["out", "tmp00000000"] = some (Utf8.encode "local _2b0c98f1_x = 1; 2\n") ∧
        ¬ Faithful (intoOut (some "a.jsonnet")) withSource scene.disk [Path.ofText "a.jsonnet"] result := by
  have hfile : ((intoOut (some "a.jsonnet")).run [Path.ofText "a.jsonnet"] withSource).1.disk.fileAt
      ["out", "tmp00000000"] = some (Utf8.encode "local _2b0c98f1_x = 1; 2\n") := by decide +kernel
  have hwritten : ((intoOut (some "a.jsonnet")).run [Path.ofText "a.jsonnet"] withSource).2.toOption.map
      BundleResult.writtenFiles = some [⟨.absolute, ["out"]⟩] := by decide +kernel
  refine ⟨apart_intoOut (l := ["out"]) rfl (by decide) rfl, ?_⟩
  rcases hrun : (intoOut (some "a.jsonnet")).run [Path.ofText "a.jsonnet"] withSource with ⟨scene, _ | result⟩
  · rw [hrun] at hwritten
    cases hwritten
  · rw [hrun] at hfile hwritten
    have houtputs : result.writtenFiles = [⟨.absolute, ["out"]⟩] := Option.some.inj hwritten
    refine ⟨scene, result, rfl, houtputs, hfile, fun h => ?_⟩
    have hrest := h.rest ["out", "tmp00000000"] (by rw [houtputs]; decide)
    rw [hfile] at hrest
    cases hrest

end Bundler

end JsonnetLocals
