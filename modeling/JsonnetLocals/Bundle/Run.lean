/-
  JsonnetLocals.Bundle.Run — renaming a list of files into an output directory.

  `bundle` checks every input first, then takes the files one after another: each is read, renamed
  with its own tag, given a header and written. It stops at the first fatal error. Occurrences that
  could not be renamed are reported and are no error.

  A run is a computation over a `Scene`, the disk and the log, both of which outlive a failure.
-/

import JsonnetLocals.Bundle.Reading
import JsonnetLocals.Output.Writer
import JsonnetLocals.Rename.Renamer

namespace JsonnetLocals

structure Refusal where
  message : Text
  path : Option Path
  /-- The single errors; never empty. -/
  errors : List Text
  deriving DecidableEq, Repr

def Skipped.record (s : Skipped) : Record := ⟨LoggerName.renamer, .warning, s.warning⟩

inductive RunError where
  | refused (r : Refusal)
  | file (e : FileError)
  /-- A literal that stands for no text. -/
  | literal (e : ParseError)
  | edit (e : EditError)
  | clock (e : ClockError)
  /-- A header that has no bytes. -/
  | unencodable (u : Unencodable)

def RunError.ofRead : Reading.ReadError → RunError
  | .literal e => .literal e
  | .file e => .file e

def RunError.message : RunError → Text
  | refused r => r.message
  | file e => e.message
  | literal e => e.detail
  | edit e => e.message
  | clock e => e.message
  | unencodable u => u.message

structure FileResult where
  input : Path
  identity : Text
  tag : String
  /-- None when nothing was written. -/
  output : Option Path
  names : List Text
  bindCount : Nat
  referenceCount : Nat
  skipped : List Skipped
  resolution : Option Resolution

structure BundleResult where
  files : List FileResult
  warnings : List Text

namespace BundleResult

def writtenFiles (r : BundleResult) : List Path := r.files.filterMap (·.output)

def skippedCount (r : BundleResult) : Nat := (r.files.flatMap (·.skipped)).length

end BundleResult

structure Bundler where
  config : Config
  env : Environment
  /-- The largest input, in megabytes. -/
  limit : Int
  /-- The time in headers. -/
  headerTime : Except ClockError Moment
  /-- The time in the names of renamed files. -/
  fileTime : WallTime
  faults : Faults

structure Scene where
  disk : Disk
  log : List Record
  /-- The places where files were written. -/
  written : List Loc

/-- A computation that may fail; the scene it leaves stays. -/
abbrev Run := ExceptT RunError (StateM Scene)

namespace Run

def note (rs : List Record) : Run Unit := modify fun s => { s with log := s.log ++ rs }

def disk : Run Disk := return (← get).disk

def fail {α : Type} (e : RunError) : Run α := throw e

/-- Goes on with what was looked up, or fails. -/
def lookUp {α : Type} (r : Except FileError α) : Run α := ExceptT.mk (pure (r.mapError .file))

def ensureDir (cwd : Loc) (p : Path) : Run Unit := do
  let (d, r) := (← disk).ensureDir cwd p
  modify fun s => { s with disk := d }
  match r with
  | .ok () => pure ()
  | .error e => fail (.file e)

def write (b : Bundler) (w : Writer) (input : Path) (content : Bytes) (root : Option Path) : Run (Writer × Written) := do
  let step := w.writeFor (← disk) b.env input content root b.fileTime b.faults
  let places := match step.result with
    | .ok r => r.output.toList.map (Path.place b.env.cwd)
    | .error _ => []
  modify fun s => ⟨step.disk, s.log ++ step.log, s.written ++ places⟩
  match step.result with
  | .ok r => pure (step.writer, r)
  | .error e => fail (.file e)

end Run

namespace Bundler

def note (level : LogLevel) (message : Text) : Record := ⟨LoggerName.bundler, level, message⟩

def root (b : Bundler) : Option Path := b.config.root?.map Path.ofText

/-! ## Checking the inputs -/

def refuse (p : Path) (message : Text) : Refusal := ⟨message, some p, [message]⟩

def refusal (b : Bundler) (d : Disk) (p : Path) : Option RunError :=
  match d.find b.env.cwd p with
  | .error e => some (.file e)
  | .ok (some (.file data)) =>
    if d.isDenied b.env.cwd p then some (.refused (refuse p ("File is not readable: " ++ p.text)))
    else if Reading.isTooLarge b.limit data.size then
      some (.refused (refuse p
        ("File too large: " ++ p.text ++ ". Maximum allowed size is " ++ toString b.limit ++ " MB")))
    else none
  | .ok _ => some (.refused (refuse p ("File not found: " ++ p.text)))

def warning (p : Path) : List Text :=
  if p.hasSourceExtension then [] else ["Unexpected file extension '" ++ p.suffix ++ "' for: " ++ p.text]

/-- Checks the inputs in order: the warnings up to the first that cannot be taken. -/
def checkInputs (b : Bundler) (d : Disk) : List Path → List Text × Option RunError
  | [] => ([], none)
  | p :: rest =>
    match b.refusal d p with
    | some r => ([], some r)
    | none =>
      let (ws, r) := b.checkInputs d rest
      (warning p ++ ws, r)

/-! ## One file -/

def rename (b : Bundler) (r : Reading) (identity : Text) : List Record × Except RunError Renamed :=
  match r.tree with
  | none => ([], .error (.refused ⟨"Failed to process " ++ r.path.text, some r.path, r.errors⟩))
  | some tree =>
    let (skipped, result) := renameLocals tree r.source identity b.config.separator
    (skipped.map Skipped.record,
      match result with
      | .ok x => .ok x
      | .error e => .error (.edit e))

/-- Reads and renames bytes, without a file. The name defaults to the identity. -/
def renameSource (b : Bundler) (source : Bytes) (identity name : Text) : List Record × Except RunError Renamed :=
  match Reading.ofSource (if name = "" then identity else name) source with
  | .error e => ([], .error (.literal e))
  | .ok (r, log) =>
    let (more, result) := b.rename r identity
    (log ++ more, result)

/-- The output for renamed code: the code, under a header if the settings ask for one. -/
def render (b : Bundler) (r : Renamed) (identity : Text) : Except RunError Bytes :=
  if b.config.addHeader then
    match b.headerTime >>= Moment.stamp with
    | .error e => .error (.clock e)
    | .ok stamp =>
      match header stamp identity with
      | .error u => .error (.unencodable u)
      | .ok bytes => .ok (bytes ++ r.code)
  else .ok r.code

def plural (n : Nat) (what : String) : String := toString n ++ " " ++ what ++ "(s)"

def processFile (b : Bundler) (w : Writer) (p : Path) : Run (Writer × FileResult) := do
  let identity := fileIdentity b.env.cwd p b.root
  match Reading.ofFile (← Run.disk) b.env.cwd b.limit p with
  | .error e => Run.fail (.ofRead e)
  | .ok (reading, log) =>
    Run.note log
    let (log, result) := b.rename reading identity
    Run.note log
    let renamed ← ExceptT.mk (pure result)
    let content ← ExceptT.mk (pure (b.render renamed identity))
    let (w, written) ← Run.write b w p content b.root
    if !renamed.skipped.isEmpty then
      Run.note [note .warning (p.text ++ ": " ++ plural renamed.skipped.length "occurrence" ++ " left unrenamed")]
    Run.note [note .info ("Processed " ++ p.text ++ " (prefix " ++ renamed.tag ++ "): " ++
      plural renamed.names.length "name" ++ ", " ++ plural renamed.bindCount "bind" ++ ", " ++
      plural renamed.referenceCount "reference")]
    return (w, ⟨p, identity, renamed.tag, written.output, renamed.names, renamed.bindCount, renamed.referenceCount,
      renamed.skipped, written.resolution⟩)

/-! ## All files -/

def targetWarning (b : Bundler) (targets : List (Path × Path)) (p target : Path) : List Text :=
  match targets.lookup target with
  | none => []
  | some q =>
    [p.text ++ " and " ++ q.text ++ " both map to " ++ target.text ++ "; conflict strategy '" ++
      b.config.conflictStrategy.label ++ "' applies"]

/-- Processes files in order. `targets` tells which input came first to each target. -/
def processFrom (b : Bundler) (w : Writer) (targets : List (Path × Path)) : List Path → Run BundleResult
  | [] => return ⟨[], []⟩
  | p :: rest => do
    let (target, notes) ← Run.lookUp (w.outputFor (← Run.disk) b.env.cwd p b.root)
    Run.note notes
    let ws := b.targetWarning targets p target
    Run.note (ws.map (note .warning))
    let (w, file) ← b.processFile w p
    let result ← b.processFrom w (if ws.isEmpty then targets ++ [(target, p)] else targets) rest
    return ⟨file :: result.files, ws ++ result.warnings⟩

def process (b : Bundler) (inputs : List Path) : Run BundleResult := do
  if inputs.isEmpty then
    let message : Text := "No input files given"
    Run.fail (.refused ⟨message, none, [message]⟩)
  Run.note [note .info ("Bundling " ++ plural inputs.length "file" ++ " into " ++ b.config.outputDir)]
  let (ws, bad) := b.checkInputs (← Run.disk) inputs
  Run.note (ws.map (note .warning))
  match bad with
  | some e => Run.fail e
  | none =>
    let made := Writer.makeOn (← Run.disk) b.env (Path.ofText b.config.outputDir) b.config.conflictStrategy
    let w ← Run.lookUp (made.mapError .badPath)
    Run.note [w.started]
    Run.ensureDir b.env.cwd w.dir
    let result ← b.processFrom w [] inputs
    let result : BundleResult := { result with warnings := ws ++ result.warnings }
    Run.note [note .info ("Bundling complete: " ++ plural result.writtenFiles.length "file" ++ " written, " ++
      plural result.skippedCount "occurrence" ++ " left unrenamed")]
    return result

def run (b : Bundler) (inputs : List Path) (d : Disk) : Scene × Except RunError BundleResult :=
  let (result, scene) := (b.process inputs).run.run ⟨d, [], []⟩
  (scene, result)

end Bundler

end JsonnetLocals
