/-
  JsonnetLocals.Proofs.Cli.Status — what becomes of a failure of the file system.

  A run can meet one in three parts: when it reads the settings (`Invocation.SettingsFail`), when it
  opens the log file (`Invocation.LogFails`), and when it works on the files (`Invocation.FilesFail`).
  - `io_failure_status`: the first gives status 2, the last status 1, and an error of the file system
    escapes just when the log file cannot be opened: the log is set up between the two parts whose
    errors are caught.
  - `log_file_below_file`: so a log file below a file ends the program without a status.

  Before the log is set up no logger writes to a file (`Registry.ConsoleOnly`), so a log file that is
  asked for is always opened.
-/

import JsonnetLocals.Cli.Program
import JsonnetLocals.Proofs.Bundle.Failures
import JsonnetLocals.Proofs.Config.Check
import JsonnetLocals.Proofs.Log.Consoles

namespace JsonnetLocals

namespace Registry

variable {r : Registry}

/-! ## Loggers without files -/

structure ConsoleOnly (r : Registry) : Prop where
  linked : r.Linked
  handlers : ∀ k, (r.logger k).handlers.all Handler.isConsole = true

namespace ConsoleOnly

protected theorem touch (h : r.ConsoleOnly) (name : Text) : (r.touch name).ConsoleOnly := by
  refine ⟨h.linked.touch name, ?_⟩
  intro k
  obtain ⟨parent, hk⟩ := h.linked.logger_touch name k
  rw [hk]
  exact h.handlers k

protected theorem update (h : r.ConsoleOnly) (name : Text) {f : Logger → Logger} (hparent : ∀ l, (f l).parent = l.parent)
    (hf : ∀ l, l.handlers.all Handler.isConsole = true → (f l).handlers.all Handler.isConsole = true) :
    (r.update name f).ConsoleOnly := by
  refine ⟨h.linked.update name hparent, ?_⟩
  intro k
  rw [logger_update]
  split
  · exact hf _ ((h.touch name).handlers k)
  · exact (h.touch name).handlers k

/-- Answers and log files do not matter. -/
theorem withRecords (h : r.ConsoleOnly) (v : List ((Text × LogLevel) × Bool)) (j : List (Loc × List Record)) :
    ({ r with verdicts := v, journals := j } : Registry).ConsoleOnly :=
  ⟨h.linked.of_parents rfl rfl fun _ _ => rfl, h.handlers⟩

protected theorem setupConsole (h : r.ConsoleOnly) (name : Text) (level : LogLevel) :
    (r.setupConsole name level).ConsoleOnly := by
  have hupdate : (r.update name fun l => { l with level := some level }).ConsoleOnly :=
    h.update name (fun _ => rfl) fun _ hl => hl
  have hlevel : (r.setOwnLevel name level).ConsoleOnly := hupdate.withRecords [] _
  unfold Registry.setupConsole
  dsimp only
  split
  · exact hlevel
  · refine hlevel.update name (fun _ => rfl) ?_
    intro l hl
    simp [hl, Handler.isConsole]

protected theorem seekHandlers (h : r.ConsoleOnly) (names : List Text) : (r.seekHandlers names).1.ConsoleOnly := by
  induction names generalizing r with
  | nil => exact h
  | cons name rest ih =>
    unfold Registry.seekHandlers
    dsimp only
    split
    · exact ih (h.touch name)
    · exact h.touch name

protected theorem request (h : r.ConsoleOnly) (name : Text) : (r.request name).ConsoleOnly := by
  have hs := (h.touch name).seekHandlers (cuts name)
  unfold Registry.request
  dsimp only
  split
  · exact h.touch name
  · generalize (r.touch name).seekHandlers (cuts name) = sought at hs ⊢
    obtain ⟨s, found⟩ := sought
    cases found with
    | true => exact hs
    | false => exact hs.setupConsole name .info

end ConsoleOnly

theorem handle_eq (rec : Record) (acc : Registry × List Text) (handler : Handler) :
    ∃ j, (handle rec acc handler).1 = { acc.1 with journals := j } := by
  unfold handle
  by_cases hl : rec.level.value < handler.level.value
  · rw [if_pos hl]
    exact ⟨_, rfl⟩
  rw [if_neg hl]
  cases handler with
  | console => exact ⟨_, rfl⟩
  | file level place =>
    dsimp only
    generalize (if isRoot rec.logger then { rec with logger := rootName } else rec : Record) = named
    by_cases hw : named.isWritable
    · rw [if_pos hw]
      exact ⟨_, rfl⟩
    · rw [if_neg hw]
      exact ⟨_, rfl⟩

theorem foldl_handle_eq (rec : Record) (handlers : List Handler) (acc : Registry × List Text) :
    ∃ j, (handlers.foldl (handle rec) acc).1 = { acc.1 with journals := j } := by
  induction handlers generalizing acc with
  | nil => exact ⟨_, rfl⟩
  | cons handler rest ih =>
    obtain ⟨j, hrest⟩ := ih (handle rec acc handler)
    obtain ⟨_, hone⟩ := handle_eq rec acc handler
    rw [List.foldl_cons, hrest, hone]
    exact ⟨j, rfl⟩

/-- A record changes no logger. -/
theorem log_eq (r : Registry) (rec : Record) :
    ∃ v j, (r.log rec).1 = { r.touch rec.logger with verdicts := v, journals := j } := by
  obtain ⟨v, passes, hj⟩ := judge_eq (r.touch rec.logger) rec.logger rec.level
  unfold log
  rw [hj]
  cases passes with
  | false => exact ⟨v, _, rfl⟩
  | true =>
    dsimp only
    split
    · exact ⟨v, _, rfl⟩
    · obtain ⟨j, hj⟩ := foldl_handle_eq rec _ ({ r.touch rec.logger with verdicts := v }, [])
      exact ⟨v, j, hj⟩

theorem ConsoleOnly.report (h : r.ConsoleOnly) (rec : Record) : (r.report rec).1.ConsoleOnly := by
  obtain ⟨v, j, hlog⟩ := log_eq (r.request rec.logger) rec
  unfold Registry.report
  rw [hlog]
  exact ((h.request rec.logger).touch rec.logger).withRecords v j

theorem ConsoleOnly.reportAll (h : r.ConsoleOnly) (recs : List Record) : (r.reportAll recs).1.ConsoleOnly := by
  unfold Registry.reportAll
  generalize ([] : List Text) = lines
  induction recs generalizing r lines with
  | nil => exact h
  | cons rec rest ih => exact ih (h.report rec) _

theorem consoleOnly_start : start.ConsoleOnly := by
  have hblank : blank.ConsoleOnly := by
    refine ⟨shows_blank.linked, ?_⟩
    intro k
    rw [shows_blank.bare k List.not_mem_nil]
    rfl
  unfold start
  generalize [LoggerName.config, LoggerName.renamer, LoggerName.bundler, LoggerName.reader] = names
  change (names.foldl Registry.request blank).ConsoleOnly
  generalize blank = r at hblank ⊢
  induction names generalizing r with
  | nil => exact hblank
  | cons name rest ih => exact ih _ (hblank.request name)

end Registry

open Registry

/-! ## Setting up the log -/

theorem Draft.exists_level_of_check {d : Draft} {c : Config} (h : d.check = .ok c) : ∃ l, levelOf c.logLevel = .ok l := by
  have hlevel := (Draft.check_eq_ok_iff.mp h).logLevel
  unfold Draft.checkLogLevel at hlevel
  split at hlevel
  · split at hlevel
    · rename_i hsome
      obtain rfl := Except.ok.inj hlevel
      obtain ⟨l, hl⟩ := Option.isSome_iff_exists.mp hsome
      exact ⟨l, by rw [levelOf, hl]⟩
    · cases hlevel
  · cases hlevel

/-- A log file that is asked for first is opened. -/
theorem LogWorld.setup_file {w : LogWorld} (hw : w.registry.ConsoleOnly) (cwd : Loc) (name : Text) {level : Text}
    {l : LogLevel} (hl : levelOf level = .ok l) (p : Path) :
    ∃ r, w.setup cwd name level (some p) =
      (⟨(openLog w.disk cwd p).1, r⟩, ((openLog w.disk cwd p).2.map fun _ => ()).mapError .badFile) := by
  have hnone : (w.registry.logger name).handlers.any (fun h => !h.isConsole) = false := by
    rw [List.any_eq_false]
    intro h hh
    simpa using List.all_eq_true.mp (hw.handlers name) h hh
  have hdebug : levelOf LogLevel.debug.label = .ok .debug := by decide +kernel
  unfold setup addFile
  simp only [hl, hnone, hdebug, Bool.false_eq_true, if_false]
  generalize openLog w.disk cwd p = opened
  obtain ⟨d, result⟩ := opened
  cases result with
  | error e => exact ⟨_, rfl⟩
  | ok place => exact ⟨_, rfl⟩

namespace Cli

namespace Session

variable {s : Session} {level : Text} {l : LogLevel}

theorem setupLog_none (cwd : Loc) (hl : levelOf level = .ok l) :
    ∃ r, s.setupLog cwd level none = ({ s with registry := r }, .ok ()) := by
  unfold setupLog LogWorld.setup
  rw [hl]
  exact ⟨_, rfl⟩

theorem setupLog_nothing (cwd : Loc) (hl : levelOf level = .ok l) :
    ∃ r, s.setupLog cwd level (some .nothing) = ({ s with registry := r }, .error .noFile) := by
  unfold setupLog LogWorld.setup
  rw [hl]
  exact ⟨_, rfl⟩

theorem setupLog_file (hs : s.registry.ConsoleOnly) (cwd : Loc) (hl : levelOf level = .ok l) (p : Text) :
    ∃ r, s.setupLog cwd level (some (.text p)) = ({ s with disk := (openLog s.disk cwd (Path.ofText p)).1, registry := r },
      ((openLog s.disk cwd (Path.ofText p)).2.map fun _ => ()).mapError .badFile) := by
  obtain ⟨r, hr⟩ := LogWorld.setup_file (w := ⟨s.disk, s.registry⟩) hs cwd LoggerName.app hl (Path.ofText p)
  refine ⟨r, ?_⟩
  have hpath : ((some (Given.text p) : Option Given) >>= Given.text?).map Path.ofText = some (Path.ofText p) := rfl
  unfold setupLog
  dsimp only
  rw [hpath, hr]
  cases (openLog s.disk cwd (Path.ofText p)).2 with
  | error e => rfl
  | ok place => rfl

theorem status_of_isReported {e : RunError} (h : e.isReported = true) : (s.conclude (.error e)).status = .ok 1 := by
  cases e with
  | refused r => rfl
  | file e =>
    have he : e.isOs = true := h
    unfold conclude
    dsimp only
    rw [if_pos he]
  | _ => cases h

end Session

/-! ## Failures -/

def Escape.fileError? : Escape → Option FileError
  | settings (.file e) => some e
  | log (.badFile e) => some e
  | run (.file e) => some e
  | _ => none

/-- An error of the file system does not escape from the work on the files. -/
theorem Session.isOs_of_conclude {s : Session} {result : Except RunError BundleResult} {x : Escape} {e : FileError}
    (h : (s.conclude result).status = .error x) (hx : x.fileError? = some e) : e.isOs = false := by
  cases result with
  | ok r => cases h
  | error err =>
    cases err with
    | refused r => cases h
    | file y =>
      unfold conclude at h
      dsimp only at h
      by_cases hos : y.isOs = true
      · rw [if_pos hos] at h
        cases h
      · rw [if_neg hos] at h
        obtain rfl := Except.error.inj h
        obtain rfl : y = e := Option.some.inj hx
        exact Bool.eq_false_iff.mpr hos
    | _ =>
      obtain rfl := Except.error.inj h
      cases hx

namespace Invocation

variable {i : Invocation} {d : Disk} {a : Arguments} {c : Config}

def bundler (i : Invocation) (c : Config) : Bundler :=
  ⟨c, i.env, Reading.defaultLimit, i.now.toUtc, i.now.wall, i.faults⟩

/-- The command line can be used, and its settings are right. -/
structure Starts (i : Invocation) (d : Disk) (a : Arguments) (c : Config) : Prop where
  arguments : readArguments i.argv = .ok a
  settings : (a.settings d i.env.cwd).2 = .ok c

def SettingsFail (i : Invocation) (d : Disk) (e : FileError) : Prop :=
  ∃ a path, readArguments i.argv = .ok a ∧ a.config = some (.text path) ∧ d.contents i.env.cwd (Path.ofText path) = .error e

def LogFails (i : Invocation) (d : Disk) (e : FileError) : Prop :=
  ∃ a c path, i.Starts d a c ∧ a.logFile = some (.text path) ∧ (openLog d i.env.cwd (Path.ofText path)).2 = .error e

/-- The log is set up, with a file or without, and leaves a disk. -/
def LogOpens (i : Invocation) (d : Disk) (a : Arguments) (d' : Disk) : Prop :=
  a.logFile = none ∧ d' = d ∨
    ∃ path place, a.logFile = some (.text path) ∧ openLog d i.env.cwd (Path.ofText path) = (d', .ok place)

/-- An input cannot be taken, a directory cannot be made, or an output cannot be written or its place looked up. -/
def FilesFail (i : Invocation) (d : Disk) : Prop :=
  ∃ a c d', i.Starts d a c ∧ i.LogOpens d a d' ∧ (i.bundler c).IoFails (a.files.map Path.ofText) d'

theorem Starts.exists_level (h : i.Starts d a c) : ∃ l, levelOf c.logLevel = .ok l := by
  have hsettings := h.settings
  unfold Arguments.settings at hsettings
  split at hsettings
  · cases hsettings
  · dsimp only at hsettings
    split at hsettings
    · cases hsettings
    · rename_i hcheck
      obtain rfl := Except.ok.inj hsettings
      exact Draft.exists_level_of_check hcheck

def ready (i : Invocation) (d : Disk) (a : Arguments) : Session := (Session.start d).report (a.settings d i.env.cwd).1

theorem consoleOnly_ready (i : Invocation) (d : Disk) (a : Arguments) : (i.ready d a).registry.ConsoleOnly :=
  consoleOnly_start.reportAll _

theorem Starts.run_eq (h : i.Starts d a c) : run i d = (i.ready d a).bundle i a c := by
  unfold run
  rw [h.arguments]
  dsimp only
  rw [h.settings]
  rfl

/-- What the program does once the log is set up. -/
theorem Starts.status_eq {d' : Disk} (h : i.Starts d a c) (hlog : i.LogOpens d a d') :
    ∃ s : Session, (run i d).status = (s.conclude ((i.bundler c).run (a.files.map Path.ofText) d').2).status := by
  obtain ⟨l, hl⟩ := h.exists_level
  rw [h.run_eq]
  unfold Session.bundle
  rcases hlog with ⟨hnone, rfl⟩ | ⟨path, place, hpath, hopen⟩
  · obtain ⟨r, hsetup⟩ := Session.setupLog_none (s := i.ready d' a) i.env.cwd hl
    rw [hnone, hsetup]
    exact ⟨_, rfl⟩
  · obtain ⟨r, hsetup⟩ := Session.setupLog_file (i.consoleOnly_ready d a) i.env.cwd hl path
    have hdisk : (i.ready d a).disk = d := rfl
    rw [hdisk, hopen] at hsetup
    rw [hpath, hsetup]
    exact ⟨_, rfl⟩

theorem Starts.status_of_nothing (h : i.Starts d a c) (hfile : a.logFile = some .nothing) :
    (run i d).status = .error (.log .noFile) := by
  obtain ⟨l, hl⟩ := h.exists_level
  obtain ⟨r, hsetup⟩ := Session.setupLog_nothing (s := i.ready d a) i.env.cwd hl
  rw [h.run_eq, Session.bundle, hfile, hsetup]

theorem Starts.status_of_openLog (h : i.Starts d a c) {path : Text} {e : FileError} (hfile : a.logFile = some (.text path))
    (hopen : (openLog d i.env.cwd (Path.ofText path)).2 = .error e) : (run i d).status = .error (.log (.badFile e)) := by
  obtain ⟨l, hl⟩ := h.exists_level
  obtain ⟨r, hsetup⟩ := Session.setupLog_file (i.consoleOnly_ready d a) i.env.cwd hl path
  have hdisk : (i.ready d a).disk = d := rfl
  rw [hdisk, hopen] at hsetup
  rw [h.run_eq, Session.bundle, hfile, hsetup]
  rfl

/-- Settings that cannot be read escape only for a reason that is no error of the file system. -/
theorem fileError?_of_not_isReport {e : StoreError} (h : e.isReport = false) : (Escape.settings e).fileError? = none := by
  cases e with
  | invalid _ => rfl
  | _ => cases h

/-- The only error of the file system that escapes is that of the log file. -/
theorem logFails_of_escape {x : Escape} {e : FileError} (h : (run i d).status = .error x) (hx : x.fileError? = some e)
    (he : e.isOs = true) : i.LogFails d e := by
  cases ha : readArguments i.argv with
  | error stop =>
    unfold run at h
    rw [ha] at h
    cases stop <;> cases h
  | ok a =>
    cases hc : (a.settings d i.env.cwd).2 with
    | error err =>
      unfold run at h
      rw [ha] at h
      dsimp only at h
      rw [hc] at h
      dsimp only at h
      by_cases hr : err.isReport = true
      · rw [if_pos hr] at h
        cases h
      · rw [if_neg hr] at h
        obtain rfl := Except.error.inj h
        rw [fileError?_of_not_isReport (Bool.eq_false_iff.mpr hr)] at hx
        cases hx
    | ok c =>
      have hstarts : i.Starts d a c := ⟨ha, hc⟩
      have hopened {d' : Disk} (hlog : i.LogOpens d a d') : False := by
        obtain ⟨s, hs⟩ := hstarts.status_eq hlog
        rw [hs] at h
        rw [Session.isOs_of_conclude h hx] at he
        cases he
      cases hfile : a.logFile with
      | none => exact (hopened (.inl ⟨hfile, rfl⟩)).elim
      | some given =>
        cases given with
        | nothing =>
          obtain rfl := Except.error.inj ((hstarts.status_of_nothing hfile).symm.trans h)
          cases hx
        | text path =>
          cases hopen : (openLog d i.env.cwd (Path.ofText path)).2 with
          | ok place => exact (hopened (.inr ⟨path, place, hfile, Prod.ext rfl hopen⟩)).elim
          | error e' =>
            obtain rfl := Except.error.inj ((hstarts.status_of_openLog hfile hopen).symm.trans h)
            obtain rfl : e' = e := Option.some.inj hx
            exact ⟨a, c, path, hstarts, hfile, hopen⟩

/-- Settings in a file that cannot be loaded give status 2, unless their error is not reported. -/
theorem status_of_load {path : Text} {e : StoreError} (ha : readArguments i.argv = .ok a) (hconfig : a.config = some (.text path))
    (hload : Config.load d i.env.cwd (Path.ofText path) = .error e) :
    (run i d).status = if e.isReport then .ok 2 else .error (.settings e) := by
  have hbase : a.base d i.env.cwd = .error e := by
    have htext : a.config >>= Given.text? = some path := by
      rw [hconfig]
      rfl
    unfold Arguments.base
    rw [htext]
    dsimp only
    rw [hload]
  have hsettings : a.settings d i.env.cwd = ([], .error e) := by
    unfold Arguments.settings
    rw [hbase]
  unfold run
  rw [ha]
  dsimp only
  rw [hsettings]
  dsimp only
  split <;> rfl

theorem SettingsFail.status {e : FileError} (h : i.SettingsFail d e) : (run i d).status = .ok 2 := by
  obtain ⟨a, path, ha, hconfig, hread⟩ := h
  have hload : Config.load d i.env.cwd (Path.ofText path) = .error (.file e) := by
    unfold Config.load
    rw [hread]
  rw [status_of_load ha hconfig hload]
  rfl

theorem FilesFail.status (h : i.FilesFail d) : (run i d).status = .ok 1 := by
  obtain ⟨a, c, d', hstarts, hlog, hfails⟩ := h
  obtain ⟨s, hs⟩ := hstarts.status_eq hlog
  obtain ⟨scene, e, hrun, he⟩ := hfails.run
  rw [hs, hrun]
  exact Session.status_of_isReported he

end Invocation

/-- A run whose settings cannot be read has status 2. One that cannot take an input (not there, denied when asked, too
    large), make a directory, write an output or look up the place of one has status 1. An error of the file system
    escapes just when it keeps the log file from being opened. -/
theorem io_failure_status (i : Invocation) (d : Disk) :
    (∀ e, i.SettingsFail d e → (run i d).status = .ok 2) ∧
    (i.FilesFail d → (run i d).status = .ok 1) ∧
    ∀ e, e.isOs = true → ((∃ x, (run i d).status = .error x ∧ x.fileError? = some e) ↔ i.LogFails d e) := by
  refine ⟨fun e h => h.status, fun h => h.status, ?_⟩
  intro e he
  constructor
  · rintro ⟨x, hstatus, hx⟩
    exact Invocation.logFails_of_escape hstatus hx he
  · rintro ⟨a, c, path, hstarts, hfile, hopen⟩
    exact ⟨_, hstarts.status_of_openLog hfile hopen, rfl⟩

def calledWith (argv : List Text) : Invocation := ⟨argv, Writer.atTop, ⟨⟨2024, 5, 1, 12, 30, 0⟩, some 0⟩, .none⟩

def oneSource : Disk := ⟨[(["a.jsonnet"], Disk.fileOf (Utf8.encode "1\n"))], []⟩

def withOption (option value : Text) : List Text := ["a.jsonnet", option, value]

def sourceOnly : Arguments := { Arguments.empty with files := ["a.jsonnet"] }

theorem starts_logFile :
    (calledWith (withOption "--log-file" "a.jsonnet/x.log")).Starts oneSource
      { sourceOnly with logFile := some (.text "a.jsonnet/x.log") }
      ⟨"default", "output", "_", true, .overwrite, none, "INFO"⟩ :=
  ⟨by decide +kernel, rfl⟩

theorem openLog_below_file :
    (openLog oneSource [] (Path.ofText "a.jsonnet/x.log")).2 = .error (.alreadyExists "a.jsonnet") := by
  decide +kernel

/-- The source is taken, but the output directory is a file. -/
theorem filesFail_directory : (calledWith (withOption "-o" "a.jsonnet")).FilesFail oneSource := by
  have haccepts : ∀ p ∈ [Path.ofText "a.jsonnet"],
      (((calledWith []).bundler ⟨"default", "a.jsonnet", "_", true, .overwrite, none, "INFO"⟩).refusal oneSource p).isNone =
        true := by
    decide +kernel
  refine ⟨{ sourceOnly with outputDir := some (.text "a.jsonnet") }, _, oneSource, ⟨by decide +kernel, rfl⟩,
    .inl ⟨rfl, rfl⟩, ?_⟩
  refine .directory (w := Writer.start ⟨.absolute, ["a.jsonnet"]⟩ .overwrite) (x := .alreadyExists "/a.jsonnet") ?_ ?_ rfl ?_ rfl
  · intro p hp
    exact Bundler.refusal_eq_none_iff.mp (Option.isNone_iff_eq_none.mp (haccepts p hp))
  · exact List.cons_ne_nil _ _
  · decide +kernel

/-- Settings that are not there, an output directory that is a file, and a log file below a file. -/
theorem io_failure_status_of_each :
    (run (calledWith (withOption "--config" "c.json")) oneSource).status = .ok 2 ∧
    (run (calledWith (withOption "-o" "a.jsonnet")) oneSource).status = .ok 1 ∧
    ∃ x, (run (calledWith (withOption "--log-file" "a.jsonnet/x.log")) oneSource).status = .error x ∧
      x.fileError? = some (.alreadyExists "a.jsonnet") := by
  have hsettings : (calledWith (withOption "--config" "c.json")).SettingsFail oneSource (.notFound "c.json") :=
    ⟨{ sourceOnly with config := some (.text "c.json") }, "c.json", by decide +kernel, rfl, by decide +kernel⟩
  refine ⟨(io_failure_status _ _).1 _ hsettings, (io_failure_status _ _).2.1 filesFail_directory, ?_⟩
  exact ((io_failure_status _ _).2.2 _ rfl).mpr ⟨_, _, _, starts_logFile, rfl, openLog_below_file⟩

/-- A log file below a file ends the program without a status. -/
theorem log_file_below_file :
    (run (calledWith (withOption "--log-file" "a.jsonnet/x.log")) oneSource).status =
      .error (.log (.badFile (.alreadyExists "a.jsonnet"))) :=
  starts_logFile.status_of_openLog rfl openLog_below_file

end Cli

end JsonnetLocals
