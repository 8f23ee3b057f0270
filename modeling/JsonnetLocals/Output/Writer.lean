/-
  JsonnetLocals.Output.Writer — writing output files.

  A write goes through a temporary file in the directory of its target, which is then moved into
  place, so that nobody sees half of a file. What to do with a target that is there already is the
  writer's strategy:
  - `overwrite` replaces it;
  - `skip` writes nothing;
  - `rename` takes a name with the time in it, and a number if that one is taken too.
  The writer counts what happened. A target that is a directory takes the temporary file in. When
  the file cannot be renamed it is copied, and a copy that fails leaves a part of it in place.
-/

import JsonnetLocals.Clock.Moment
import JsonnetLocals.Config.Settings
import JsonnetLocals.Files.Disk

namespace JsonnetLocals

/-- What becomes of moving a file into place. -/
inductive MoveEnd where
  | moves
  /-- It fails, and nothing is moved. -/
  | refused
  /-- The file cannot be renamed. It is copied instead, and that fails when its first `n` bytes are in place. -/
  | copied (n : Nat)
  deriving DecidableEq, Repr

/-- A move of which only is told whether it fails moves nothing when it does. -/
instance : Coe Bool MoveEnd := ⟨fun fails => if fails then .refused else .moves⟩

/-- The steps of a write that may fail by themselves. -/
structure Faults where
  move : MoveEnd
  /-- Removing the temporary file after a failed move. -/
  cleanup : Bool
  deriving DecidableEq, Repr

def Faults.none : Faults := ⟨false, false⟩

inductive Resolution where
  | overwritten
  | skipped
  | renamed
  deriving DecidableEq, Repr

def Resolution.label : Resolution → Text
  | overwritten => "overwritten"
  | skipped => "skipped"
  | renamed => "renamed"

structure WriteCall where
  target : Path
  content : Bytes
  /-- The file that the content was made from. -/
  input : Option Path
  now : WallTime
  faults : Faults

structure Written where
  /-- None when nothing was written. -/
  output : Option Path
  /-- The target as it was asked for. -/
  requested : Path
  resolution : Option Resolution
  deriving DecidableEq, Repr

structure Writer where
  /-- The output directory, absolute. -/
  dir : Path
  strategy : ConflictStrategy
  total : Nat
  successful : Nat
  skipped : Nat
  renamed : Nat
  overwritten : Nat
  /-- What was written, in order. -/
  written : List Path
  deriving DecidableEq, Repr

structure WriteStep where
  writer : Writer
  disk : Disk
  log : List Record
  result : Except FileError Written

namespace Writer

def note (level : LogLevel) (message : Text) : Record := ⟨LoggerName.writer, level, message⟩

def start (dir : Path) (strategy : ConflictStrategy) : Writer := ⟨dir, strategy, 0, 0, 0, 0, 0, []⟩

def started (w : Writer) : Record :=
  note .debug ("OutputWriter initialised: dir=" ++ w.dir.text ++ ", strategy=" ++ w.strategy.label)

/-! ## Names -/

/-- The target with the time in its name, and after the first try a number. -/
def candidate (target : Path) (now : WallTime) (n : Nat) : Path :=
  let number : String := if n = 0 then "" else "_" ++ toString n
  target.parent.child (target.stem ++ "_" ++ now.suffix ++ number ++ target.suffix)

/-- The first candidate from the `n`th on that is free. The last of the tries is not checked. -/
def freeNameFrom (d : Disk) (cwd : Loc) (target : Path) (now : WallTime) (n : Nat) : Nat → Except FileError Path
  | 0 => .ok (candidate target now n)
  | tries + 1 =>
    match d.pathExists cwd (candidate target now n) with
    | .error e => .error e
    | .ok false => .ok (candidate target now n)
    | .ok true => freeNameFrom d cwd target now (n + 1) tries

/-- The first candidate that is free. A disk has fewer entries than there are tries. -/
def freeName (d : Disk) (cwd : Loc) (target : Path) (now : WallTime) : Except FileError Path :=
  freeNameFrom d cwd target now 0 (d.entries.length + 1)

def tempName (suffix : Text) (n : Nat) : Text := "tmp" ++ WallTime.padded 8 n ++ suffix

/-- A name with the extension of the target. It is not the target's, and no entry of the disk is listed under it. -/
def freshName (d : Disk) (target : Path) : Text :=
  let names := target.name.storedName :: d.entries.filterMap fun e => e.1.getLast?
  let tries := d.entries.length + 2
  (((List.range tries).map (tempName target.suffix)).find? fun s => !names.contains s.storedName).getD
    (tempName target.suffix tries)

/-! ## One file -/

/-- What to do with a target that is there. -/
def resolveConflict (strategy : ConflictStrategy) (d : Disk) (cwd : Loc) (now : WallTime) (target : Path) :
    Except FileError (Option Path × Resolution × Text) :=
  match strategy with
  | .skip => .ok (none, .skipped, "SKIP")
  | .rename => (freeName d cwd target now).map fun free => (some free, .renamed, "RENAME -> " ++ free.name)
  | .overwrite => .ok (some target, .overwritten, "OVERWRITE")

/-- Where a move takes a file: to the target or, if that is a directory, into it under the name that the file has. -/
def destination (d : Disk) (cwd : Loc) (temp target : Path) : Except FileError Loc :=
  match d.locate cwd target with
  | .error e => .error e
  | .ok place =>
    match d.get? place with
    | some .dir =>
      let inside := target.child temp.name
      match d.locate cwd inside with
      | .error e => .error e
      | .ok place =>
        match d.get? place with
        | some _ => .error (.destinationTaken inside.text)
        | none => .ok place
    | _ => .ok place

/-- Moves the temporary file, which holds the content, into place. -/
def moveInto (d : Disk) (cwd : Loc) (how : MoveEnd) (temp target : Path) (content : Bytes) : Disk × Except FileError Unit :=
  if how = .refused then (d, .error .moveFailed)
  else
    match destination d cwd temp target with
    | .error e => (d, .error e)
    | .ok place =>
      match how with
      | .copied n => (d.put place (Disk.fileOf (content.take n)), .error .moveFailed)
      | _ => (d.move (temp.place cwd) place, .ok ())

def writeAtomic (d : Disk) (cwd : Loc) (faults : Faults) (target : Path) (content : Bytes) :
    Disk × List Record × Except FileError Unit :=
  match d.ensureDir cwd target.parent with
  | (d, .error e) => (d, [], .error e)
  | (d, .ok ()) =>
    let failed (e : FileError) : Record :=
      note .error ("Atomic write failed for " ++ target.text ++ ": " ++ e.message)
    let temp := target.parent.child (freshName d target)
    match d.writeContents cwd temp content with
    | .error e => (d, [failed e], .error e)
    | .ok full =>
      match moveInto full cwd faults.move temp target content with
      | (d, .ok ()) => (d, [note .debug ("Atomic write: renamed " ++ temp.text ++ " -> " ++ target.text)], .ok ())
      | (d, .error e) =>
        if faults.cleanup then
          (d, [failed e, note .error ("Failed to clean up temp file: " ++ temp.text)], .error e)
        else (d.erase (temp.place cwd), [failed e], .error e)

def count (w : Writer) (output : Path) (resolution : Option Resolution) : Writer :=
  { w with
    successful := w.successful + 1
    written := w.written ++ [output]
    overwritten := if resolution = some .overwritten then w.overwritten + 1 else w.overwritten
    renamed := if resolution = some .renamed then w.renamed + 1 else w.renamed }

/-- Writes to an absolute target after its conflict was resolved; `notes` were made so far. -/
def put (w : Writer) (d : Disk) (cwd : Loc) (call : WriteCall) (output : Path) (resolution : Option Resolution)
    (notes : List Record) : WriteStep :=
  match writeAtomic d cwd call.faults output call.content with
  | (d, log, .error e) => ⟨w, d, notes ++ log, .error e⟩
  | (d, log, .ok ()) =>
    let source : Text := match call.input with
      | none => ""
      | some p => " (source: " ++ p.text ++ ")"
    let conflict : Text := match resolution with
      | none => "None"
      | some r => r.label
    ⟨w.count output resolution, d,
      notes ++ log ++ [note .info ("Wrote " ++ output.text ++ source ++ " [conflict=" ++ conflict ++ "]")],
      .ok ⟨some output, call.target, resolution⟩⟩

def write (w : Writer) (d : Disk) (env : Environment) (call : WriteCall) (loops : Path → Bool := Disk.noLoops) :
    WriteStep :=
  let w := { w with total := w.total + 1 }
  match d.normalize env call.target loops with
  | .error e => ⟨w, d, [], .error (.badPath e)⟩
  | .ok target =>
    match d.find env.cwd target with
    | .error e => ⟨w, d, [], .error e⟩
    | .ok none => w.put d env.cwd call target none []
    | .ok (some _) =>
      if d.isDenied env.cwd target then ⟨w, d, [], .error (.notWritable target.text)⟩
      else
        match resolveConflict w.strategy d env.cwd call.now target with
        | .error e => ⟨w, d, [], .error e⟩
        | .ok (none, resolution, what) =>
          ⟨{ w with skipped := w.skipped + 1 }, d,
            [note .info ("Conflict resolved for " ++ target.name ++ ": " ++ what),
              note .info ("Skipped writing " ++ call.target.name ++ " (conflict: SKIP)")],
            .ok ⟨none, call.target, some resolution⟩⟩
        | .ok (some output, resolution, what) =>
          w.put d env.cwd call output (some resolution)
            [note .info ("Conflict resolved for " ++ target.name ++ ": " ++ what)]

/-! ## The layout of the output directory -/

/-- Where the output for an input goes: below a root the layout is kept, all else is flat. -/
def outputPath (w : Writer) (cwd : Loc) (input : Path) (root : Option Path) : Path × List Record :=
  match root with
  | none => (w.dir.child input.name, [])
  | some r =>
    match input.below cwd r with
    | .ok q => (w.dir.join q, [])
    | .error _ =>
      (w.dir.child input.name, [note .debug (input.text ++ " is outside " ++ r.text ++ ", using flat structure")])

/-- Looks where the output for an input goes. With a root this needs the places of both. A path that means no place
    is outside, all else that keeps a place from being found is an error. -/
def outputFor (w : Writer) (d : Disk) (cwd : Loc) (input : Path) (root : Option Path)
    (loops : Path → Bool := Disk.noLoops) : Except FileError (Path × List Record) :=
  match root with
  | none => .ok (w.outputPath cwd input none)
  | some r =>
    match d.resolve cwd input loops >>= fun _ => d.resolve cwd r loops with
    | .ok _ => .ok (w.outputPath cwd input (some r))
    | .error e => if e.isFlaw then .ok (w.outputPath cwd input (some r)) else .error (.badPath e)

/-- Writes the output for an input, where the layout puts it. A look-up that fails is not counted as a write. -/
def writeFor (w : Writer) (d : Disk) (env : Environment) (input : Path) (content : Bytes) (root : Option Path)
    (now : WallTime) (faults : Faults) (loops : Path → Bool := Disk.noLoops) : WriteStep :=
  match w.outputFor d env.cwd input root loops with
  | .error e => ⟨w, d, [], .error e⟩
  | .ok (target, notes) =>
    let step := w.write d env ⟨target, content, some input, now, faults⟩ loops
    { step with log := notes ++ [note .debug ("Output path: " ++ input.text ++ " -> " ++ target.text)] ++ step.log }

def make (env : Environment) (dir : Path) (strategy : ConflictStrategy) : Except PathError Writer :=
  (dir.normalize env).map fun dir => start dir strategy

/-- The writer for an output directory, if its place can be found. -/
def makeOn (d : Disk) (env : Environment) (dir : Path) (strategy : ConflictStrategy) : Except PathError Writer :=
  (d.normalize env dir).map fun dir => start dir strategy

end Writer

end JsonnetLocals
