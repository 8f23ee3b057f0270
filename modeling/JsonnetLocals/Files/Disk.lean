/-
  JsonnetLocals.Files.Disk — a tree of files without links.

  A disk lists its entries by place; the top is always a directory. A path is followed name by
  name from the working directory, and each name must be taken from an existing directory, so
  `missing/../x` is not found. Names and paths have a greatest length, in bytes. Every operation
  answers what it finds or leaves a new disk.
-/

import JsonnetLocals.Files.Path
import JsonnetLocals.Table

namespace JsonnetLocals

inductive Entry where
  | dir
  | file (data : ByteArray)

inductive FileError where
  | notFound (path : Text)
  | alreadyExists (path : Text)
  | notDirectory (path : Text)
  | isDirectory (path : Text)
  | nameTooLong (path : Text)
  | notWritable (path : Text)
  /-- A file cannot be moved into a directory that has one of its name. -/
  | destinationTaken (path : Text)
  /-- A file could not be moved into place. -/
  | moveFailed
  | badPath (e : PathError)
  deriving DecidableEq, Repr

def FileError.message : FileError → Text
  | notFound p => "[Errno 2] No such file or directory: " ++ p.quoted
  | alreadyExists p => "[Errno 17] File exists: " ++ p.quoted
  | notDirectory p => "[Errno 20] Not a directory: " ++ p.quoted
  | isDirectory p => "[Errno 21] Is a directory: " ++ p.quoted
  | nameTooLong p => "[Errno 36] File name too long: " ++ p.quoted
  | notWritable p => "File is not writable: " ++ p
  | destinationTaken p => "Destination path '" ++ p ++ "' already exists"
  | moveFailed => "disk full"
  | badPath e => e.message

/-- Whether the error comes from the file system. -/
def FileError.isOs : FileError → Bool
  | badPath e => e = .noWorkingDirectory
  | _ => true

/-- Whether the error only says that a path leads to nothing. -/
def FileError.isAbsence : FileError → Bool
  | notFound _ | notDirectory _ | badPath _ => true
  | _ => false

structure Disk where
  entries : List (Loc × Entry)
  /-- Places of which the system says, when it is asked, that they may be neither read nor written. -/
  denied : List Loc

namespace Disk

def get? (d : Disk) (l : Loc) : Option Entry := if l = [] then some .dir else d.entries.lookup l

def put (d : Disk) (l : Loc) (e : Entry) : Disk := { d with entries := Table.put l e d.entries }

def erase (d : Disk) (l : Loc) : Disk := { d with entries := Table.erase l d.entries }

/-- After a `put`, a place holds what was put there, and any other place what it held. -/
theorem get?_put (d : Disk) (l k : Loc) (e : Entry) (hk : k ≠ []) :
    (d.put l e).get? k = if k == l then some e else d.get? k := by
  simp only [get?, put, hk, if_false, Table.lookup_put]

/-- After an `erase`, a place is empty, and any other place holds what it held. -/
theorem get?_erase (d : Disk) (l k : Loc) (hk : k ≠ []) :
    (d.erase l).get? k = if k == l then none else d.get? k := by
  simp only [get?, erase, hk, if_false, Table.lookup_erase]

def move (d : Disk) (src dst : Loc) : Disk :=
  match d.get? src with
  | none => d
  | some e => (d.erase src).put dst e

/-! ## Following paths -/

def maxName : Nat := 255

def maxPath : Nat := 4095

/-- Goes along names from a place. What the last name leads to need not exist. -/
def follow (d : Disk) (path : Text) : Loc → List Text → Except FileError Loc
  | l, [] => .ok l
  | l, part :: rest =>
    match d.get? l with
    | none => .error (.notFound path)
    | some (.file _) => .error (.notDirectory path)
    | some .dir =>
      if maxName < part.nameSize then .error (.nameTooLong path)
      else d.follow path (Path.stepLoc l part.storedName) rest

def locate (d : Disk) (cwd : Loc) (p : Path) : Except FileError Loc :=
  match Path.nameFlaw 0 p.text with
  | some e => .error (.badPath e)
  | none =>
    if maxPath < p.text.nameSize then .error (.nameTooLong p.text)
    else d.follow p.text (if p.anchor = .relative then cwd else []) p.parts

def stat (d : Disk) (cwd : Loc) (p : Path) : Except FileError Entry :=
  match d.locate cwd p with
  | .error e => .error e
  | .ok l =>
    match d.get? l with
    | none => .error (.notFound p.text)
    | some e => .ok e

def find (d : Disk) (cwd : Loc) (p : Path) : Except FileError (Option Entry) :=
  match d.stat cwd p with
  | .ok e => .ok (some e)
  | .error e => if e.isAbsence then .ok none else .error e

def pathExists (d : Disk) (cwd : Loc) (p : Path) : Except FileError Bool := (d.find cwd p).map Option.isSome

def isFile (d : Disk) (cwd : Loc) (p : Path) : Except FileError Bool :=
  (d.find cwd p).map fun
    | some (.file _) => true
    | _ => false

def isDir (d : Disk) (cwd : Loc) (p : Path) : Bool :=
  match d.stat cwd p with
  | .ok .dir => true
  | _ => false

/-- The answer to whether a path may be neither read nor written. Reading and writing do not ask. -/
def isDenied (d : Disk) (cwd : Loc) (p : Path) : Bool := d.denied.contains (p.resolveLoc cwd)

def mayAccess (d : Disk) (cwd : Loc) (p : Path) : Except FileError Bool :=
  (d.pathExists cwd p).map fun there => there && !d.isDenied cwd p

def directorySize : Nat := 4096

def sizeOf : Entry → Nat
  | .dir => directorySize
  | .file data => data.size

/-! ## Absolute paths -/

/-- Whether a path needs the working directory, and that is gone. -/
def isAdrift (d : Disk) (cwd : Loc) (p : Path) : Bool :=
  match p.anchor, d.get? cwd with
  | .relative, some .dir => false
  | .relative, _ => true
  | _, _ => false

def noLoops : Path → Bool := fun _ => false

/-- The absolute path of the place that a path means. A tree has no links, so it is told from outside
    which paths run into links that lead back to themselves. -/
def resolve (d : Disk) (cwd : Loc) (p : Path) (loops : Path → Bool := noLoops) : Except PathError Path :=
  match p.resolve cwd with
  | .error e => .error e
  | .ok q =>
    if d.isAdrift cwd p then .error .noWorkingDirectory
    else if loops p then .error (.linkLoop q.text)
    else .ok q

def normalize (d : Disk) (env : Environment) (p : Path) (loops : Path → Bool := noLoops) : Except PathError Path :=
  match p.expandUser env with
  | .error e => .error e
  | .ok q => d.resolve env.cwd q loops

/-! ## Reading and writing -/

def contents (d : Disk) (cwd : Loc) (p : Path) : Except FileError Bytes :=
  match d.stat cwd p with
  | .error e => .error e
  | .ok .dir => .error (.isDirectory p.text)
  | .ok (.file data) => .ok data.data.toList

def fileOf (content : Bytes) : Entry := .file ⟨content.toArray⟩

def writeContents (d : Disk) (cwd : Loc) (p : Path) (content : Bytes) : Except FileError Disk :=
  match d.locate cwd p with
  | .error e => .error e
  | .ok l =>
    match d.get? l with
    | some .dir => .error (.isDirectory p.text)
    | _ => .ok (d.put l (fileOf content))

def makeDir (d : Disk) (cwd : Loc) (p : Path) : Except FileError Disk :=
  match d.locate cwd p with
  | .error e => .error e
  | .ok l =>
    match d.get? l with
    | some _ => .error (.alreadyExists p.text)
    | none => .ok (d.put l .dir)

/-- A failure to make a directory is none if the directory is there. -/
def settleDir (d : Disk) (cwd : Loc) (p : Path) : Except FileError Disk → Except FileError Disk
  | .ok d => .ok d
  | .error e => if d.isDir cwd p then .ok d else .error e

/-- Makes the directory of the first `n` names of a path, and those above it that are missing.
    What was made stays when a later one fails. -/
def makeDirs (d : Disk) (cwd : Loc) (p : Path) : Nat → Disk × Except FileError Unit
  | 0 => (d, (d.settleDir cwd { p with parts := [] } (d.makeDir cwd { p with parts := [] })).map fun _ => ())
  | n + 1 =>
    let q : Path := { p with parts := p.parts.take (n + 1) }
    match d.makeDir cwd q with
    | .ok d => (d, .ok ())
    | .error (.notFound _) =>
      match d.makeDirs cwd p n with
      | (d, .error e) => (d, .error e)
      | (d, .ok ()) =>
        match d.settleDir cwd q (d.makeDir cwd q) with
        | .ok d => (d, .ok ())
        | .error e => (d, .error e)
    | .error e => (d, if d.isDir cwd q then .ok () else .error e)

def ensureDir (d : Disk) (cwd : Loc) (p : Path) : Disk × Except FileError Unit := d.makeDirs cwd p p.parts.length

end Disk

end JsonnetLocals
