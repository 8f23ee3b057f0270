/-
  JsonnetLocals.Bundle.Reading — source files with their trees.

  A file is read only if it is there, may be accessed and is not too large; a fault of its syntax
  becomes a reading without a tree. The bytes stay next to the tree, because every edit counts in
  them.
-/

import JsonnetLocals.Files.Disk
import JsonnetLocals.Log.Record
import JsonnetLocals.Syntax.Parse

namespace JsonnetLocals

/-- A source and its tree, or why it has none. -/
structure Reading where
  tree : Option Node
  source : Bytes
  path : Path
  errors : List Text

namespace Reading

def isSuccess (r : Reading) : Bool := r.tree.isSome

/-- The size up to which files are read, in megabytes. -/
def defaultLimit : Int := 10

def megabyte : Nat := 1024 * 1024

def isTooLarge (limit : Int) (size : Nat) : Bool := limit * megabyte < size

/-- A size in megabytes, with two places. -/
def megabytes (size : Nat) : String :=
  let hundredths := Double.roundDiv (size * 100) megabyte
  toString (hundredths / 100) ++ "." ++ toString (hundredths / 10 % 10) ++ toString (hundredths % 10)

def note (level : LogLevel) (message : Text) : Record := ⟨LoggerName.reader, level, message⟩

def failure (path : Path) (source : Bytes) (message : Text) : Reading × List Record :=
  (⟨none, source, path, [message]⟩, [note .error message])

inductive ReadError where
  /-- A literal that stands for no text. -/
  | literal (e : ParseError)
  | file (e : FileError)

/-- Reads bytes under a name. A lone surrogate is not a fault of syntax and fails by itself. -/
def ofSource (name : Text) (source : Bytes) : Except ParseError (Reading × List Record) :=
  let path := Path.ofText name
  match parse name source with
  | .ok tree =>
    .ok (⟨some tree, source, path, []⟩, [note .info ("Successfully parsed Jsonnet file: " ++ path.text)])
  | .error e => if e.isSyntax then .ok (failure path source ("Syntax error in " ++ e.message name)) else .error e

def refusal (d : Disk) (cwd : Loc) (limit : Int) (p : Path) : Option Entry → Option Text
  | none => some ("File not found: " ++ p.text)
  | some e =>
    if d.isDenied cwd p then some ("File is not readable: " ++ p.text)
    else if isTooLarge limit (Disk.sizeOf e) then
      some ("File too large: " ++ p.text ++ " (" ++ megabytes (Disk.sizeOf e) ++ " MB). Maximum allowed size is " ++
        toString limit ++ " MB")
    else none

def ofFile (d : Disk) (cwd : Loc) (limit : Int) (p : Path) : Except ReadError (Reading × List Record) :=
  match d.find cwd p with
  | .error e => .error (.file e)
  | .ok entry =>
    match refusal d cwd limit p entry with
    | some message => .ok (failure p [] message)
    | none =>
      match d.contents cwd p with
      | .error e => .ok (failure p [] ("Failed to read file " ++ p.text ++ ": " ++ e.message))
      | .ok source => (ofSource p.text source).mapError ReadError.literal

end Reading

end JsonnetLocals
