/-
  JsonnetLocals.Rename.Renamer — renaming the locals of one file.

  Two passes go over the tree, both against the same frozen buffer:
  - the first finds every bind of a `local`, in an expression or in an object, checks its place,
    queues its edit and adds its name to the bound names;
  - the second does the same for every variable whose name is bound.
  An occurrence whose place does not hold its name is skipped and reported. Binding is by name
  alone: a variable that means a parameter of a bound name is renamed too.
-/

import JsonnetLocals.Rename.Naming
import JsonnetLocals.Source.Edit
import JsonnetLocals.Syntax.Tree

namespace JsonnetLocals

inductive OccurrenceKind where
  | bind
  | reference
  deriving DecidableEq, Repr

def OccurrenceKind.label : OccurrenceKind → String
  | bind => "bind"
  | reference => "reference"

structure Occurrence where
  kind : OccurrenceKind
  name : Text
  range : Range
  deriving DecidableEq, Repr

namespace Occurrence

/-- Where the name ends. The range of a bind covers the whole bind, so its name is measured. -/
def stop (o : Occurrence) : Position :=
  match o.kind with
  | .bind => ⟨o.range.start.line, o.range.start.column + o.name.length⟩
  | .reference => o.range.stop

def ofBind (b : Bind Node) : Occurrence := ⟨.bind, b.name, b.range⟩

/-- The span of the occurrence, if it holds the name. -/
def locate (o : Occurrence) (source : Bytes) (lineStarts : List Nat) : Except SpanError Span :=
  if o.range.isSet then Span.verify source (Span.resolve lineStarts o.range.start o.stop) o.name
  else .error (.mismatch (.unlocated o.name))

end Occurrence

namespace Node

/-- The binds of a tree, in the order of a walk. -/
def bindOccurrences (n : Node) : List Occurrence := n.walk.flatMap fun m => m.binds.map Occurrence.ofBind

def reference? : Node → Option Occurrence
  | var name range => some ⟨.reference, name, range⟩
  | _ => none

def references (n : Node) : List Occurrence := n.walk.filterMap reference?

end Node

/-- An occurrence that keeps its name. -/
structure Skipped where
  occurrence : Occurrence
  reason : Mismatch
  deriving DecidableEq, Repr

def Skipped.warning (s : Skipped) : Text :=
  let o := s.occurrence
  "Not renaming " ++ o.kind.label ++ " '" ++ o.name ++ "' at " ++ sourceLabel o.range.file ++ ":" ++
    toString o.range.start.line ++ ":" ++ toString o.range.start.column ++ ": " ++ s.reason.message

structure Renamer where
  source : Bytes
  lineStarts : List Nat
  tag : String
  separator : Text
  /-- Names whose bind is queued, each once. -/
  bound : List Text
  /-- Edits of `source`, in the order in which they were queued. -/
  edits : List Edit
  skipped : List Skipped
  bindCount : Nat
  referenceCount : Nat

structure Renamed where
  code : Bytes
  tag : String
  /-- The bound names, sorted. -/
  names : List Text
  bindCount : Nat
  referenceCount : Nat
  skipped : List Skipped

namespace Renamer

def start (source : Bytes) (identity separator : Text) : Except Unencodable Renamer :=
  (fileTag identity).map fun tag => ⟨source, LineIndex.build source, tag, separator, [], [], [], 0, 0⟩

/-- Counts an occurrence whose edit is queued, and binds its name if it is a bind. -/
def count (r : Renamer) (o : Occurrence) : Renamer :=
  match o.kind with
  | .bind => { r with bound := r.bound.insert o.name, bindCount := r.bindCount + 1 }
  | .reference => { r with referenceCount := r.referenceCount + 1 }

/-- Queues the edit of an occurrence, or skips it. -/
def record (r : Renamer) (o : Occurrence) : Except EditError Renamer :=
  match o.locate r.source r.lineStarts with
  | .error (.unencodable u) => .error (.unencodable u)
  | .error (.mismatch reason) => .ok { r with skipped := r.skipped ++ [⟨o, reason⟩] }
  | .ok span =>
    match Edit.make span.start span.stop (newName r.tag r.separator o.name) with
    | .error e => .error e
    | .ok edit => .ok ({ r with edits := r.edits ++ [edit] }.count o)

/-- Records occurrences until one cannot be edited; what was recorded before stays. -/
def recordAll (r : Renamer) : List Occurrence → Renamer × Option EditError
  | [] => (r, none)
  | o :: rest =>
    match r.record o with
    | .error e => (r, some e)
    | .ok r => r.recordAll rest

def collectBinds (r : Renamer) (tree : Node) : Renamer × Option EditError := r.recordAll tree.bindOccurrences

def collectReferences (r : Renamer) (tree : Node) : Renamer × Option EditError :=
  r.recordAll (tree.references.filter fun o => r.bound.contains o.name)

def apply (r : Renamer) : Except EditError Bytes := Edit.applyAll r.source r.edits

def result (r : Renamer) : Except EditError Renamed :=
  r.apply.map fun code =>
    ⟨code, r.tag, r.bound.mergeSort Text.precedes, r.bindCount, r.referenceCount, r.skipped⟩

def run (r : Renamer) (tree : Node) : Renamer × Except EditError Renamed :=
  match r.collectBinds tree with
  | (r, some e) => (r, .error e)
  | (r, none) =>
    match r.collectReferences tree with
    | (r, some e) => (r, .error e)
    | (r, none) => (r, r.result)

end Renamer

/-- Renames every local of a tree that was read from `source`. What was skipped is told also when
    an edit failed. -/
def renameLocals (tree : Node) (source : Bytes) (identity separator : Text) : List Skipped × Except EditError Renamed :=
  match Renamer.start source identity separator with
  | .error u => ([], .error (.unencodable u))
  | .ok r =>
    let (r, result) := r.run tree
    (r.skipped, result)

end JsonnetLocals
