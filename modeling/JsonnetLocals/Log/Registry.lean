/-
  JsonnetLocals.Log.Registry — loggers, their handlers, and where a record is shown.

  Loggers are named by dotted paths. A logger is made when it is first used, and then gets its
  parent: the nearest logger above it that is there, else the root. A name above it that is no logger
  yet remembers it, and takes it over if it becomes one (`Registry.touch`).

  A record passes if its level is at least the effective level of its logger: the logger's own level,
  or that of the nearest ancestor with one. The answer is kept until some level is set. A record that
  passes goes to the handlers of the logger and of its ancestors, nearest first, up to a logger that
  does not propagate; each handler compares its own level only. A record that finds no handler is
  shown bare if it is a warning or worse.

  `Registry.request` gives a logger a console handler only if none would be reached.
-/

import JsonnetLocals.Files.Disk
import JsonnetLocals.Log.Record

namespace JsonnetLocals

inductive Handler where
  | console (level : LogLevel)
  /-- Appends to the file at `place`. -/
  | file (level : LogLevel) (place : Loc)
  deriving DecidableEq, Repr

namespace Handler

def level : Handler → LogLevel
  | console l => l
  | file l _ => l

def isConsole : Handler → Bool
  | console _ => true
  | file _ _ => false

/-- The handler with another level; a file keeps its own. -/
def withLevel (l : LogLevel) : Handler → Handler
  | console _ => console l
  | h => h

end Handler

structure Logger where
  /-- None when the level is an ancestor's. -/
  level : Option LogLevel
  handlers : List Handler
  propagate : Bool
  /-- None when the root is above. -/
  parent : Option Text
  deriving DecidableEq, Repr

def Logger.fresh (parent : Option Text) : Logger := ⟨none, [], true, parent⟩

structure Registry where
  root : Logger
  loggers : List (Text × Logger)
  /-- Names that are no loggers, with the loggers below them that passed them by. -/
  passed : List (Text × List Text)
  /-- Which levels pass which loggers, as far as it was asked since a level was last set. -/
  verdicts : List ((Text × LogLevel) × Bool)
  /-- What was appended to each log file. -/
  journals : List (Loc × List Record)

inductive LogError where
  | badLevel (given : Text)
  | badFile (e : FileError)
  /-- A log file was asked for and none was named. -/
  | noFile
  deriving DecidableEq, Repr

def LogError.message : LogError → Text
  | badLevel given =>
    "Invalid log level: " ++ given ++ ". Must be one of " ++ Text.quotedList (LogLevel.all.map LogLevel.label)
  | badFile e => e.message
  | noFile => "'list' object has no attribute 'parent'"

namespace Registry

/-! ## Names -/

def rootName : Text := "root"

def isRoot (name : Text) : Bool := name == "" || name == rootName

def dot : Nat := '.'.toNat

/-- The texts before the dots of a reversed name, longest first. The character before a dot that
    was taken is passed over, so of two dots in a row the first is none. -/
def ancestorsFrom : List Nat → List Text
  | [] | [_] => []
  | c :: d :: before =>
    if c = dot then ⟨(d :: before).reverse⟩ :: ancestorsFrom before else ancestorsFrom (d :: before)

def ancestors (name : Text) : List Text := ancestorsFrom name.codes.reverse

/-- The texts before each dot of a reversed name, longest first. -/
def cutsFrom : List Nat → List Text
  | [] | [_] => []
  | c :: d :: before => if c = dot then ⟨(d :: before).reverse⟩ :: cutsFrom (d :: before) else cutsFrom (d :: before)

def cuts (name : Text) : List Text := cutsFrom name.codes.reverse

/-! ## Loggers -/

def logger (r : Registry) (name : Text) : Logger :=
  if isRoot name then r.root else (r.loggers.lookup name).getD (.fresh none)

def setLogger (r : Registry) (name : Text) (l : Logger) : Registry :=
  if isRoot name then { r with root := l } else { r with loggers := Table.put name l r.loggers }

/-- A logger that was set is the one found, under any name of the root or under its own. -/
theorem logger_setLogger (r : Registry) (name k : Text) (l : Logger) :
    (r.setLogger name l).logger k =
      if isRoot name && isRoot k || !isRoot name && k == name then l else r.logger k := by
  by_cases hn : isRoot name <;> by_cases hk : isRoot k
  · simp [setLogger, logger, hn, hk]
  · simp [setLogger, logger, hn, hk]
  · have hne : k ≠ name := fun e => hn (e ▸ hk)
    simp [setLogger, logger, hn, hk, hne]
  · by_cases e : k = name
    · subst e; simp [setLogger, logger, hn, Table.lookup_put]
    · simp [setLogger, logger, hn, hk, e, Table.lookup_put]

/-- The nearest of the names above a new logger that is a logger. Those before it remember it. -/
def findParent (r : Registry) (name : Text) : List Text → Registry × Option Text
  | [] => (r, none)
  | above :: rest =>
    if (r.loggers.lookup above).isSome then (r, some above)
    else
      let waiting := (r.passed.lookup above).getD []
      findParent { r with passed := Table.put above (waiting ++ [name]) r.passed } name rest

/-- Makes a new logger the parent of one that passed its name by, unless the parent of that one has
    a name that starts with the new one's. -/
def takeOver (name : Text) (r : Registry) (child : Text) : Registry :=
  let l := r.logger child
  if name.isPrefixOf (l.parent.getD rootName) then r
  else r.setLogger child { l with parent := some name }

def touch (r : Registry) (name : Text) : Registry :=
  if isRoot name || (r.loggers.lookup name).isSome then r
  else
    let r := ((r.passed.lookup name).getD []).foldl (takeOver name) r
    let (r, parent) := { r with passed := Table.erase name r.passed }.findParent name (ancestors name)
    r.setLogger name (.fresh parent)

def update (r : Registry) (name : Text) (f : Logger → Logger) : Registry :=
  let r := r.touch name
  r.setLogger name (f (r.logger name))

/-- At most `n` loggers from a name upwards, then the root. -/
def chainFrom (r : Registry) : Nat → Text → List Logger
  | 0, _ => [r.root]
  | n + 1, name =>
    if isRoot name then [r.root]
    else
      let l := r.logger name
      match l.parent with
      | none => [l, r.root]
      | some above => l :: r.chainFrom n above

/-- The logger, its ancestors and the root. A parent's name is shorter than the logger's. -/
def chain (r : Registry) (name : Text) : List Logger := r.chainFrom name.length name

/-! ## Records -/

/-- The level that a record of the logger must have. -/
def effectiveLevel (r : Registry) (name : Text) : LogLevel := ((r.chain name).findSome? (·.level)).getD .warning

def reach : List Logger → List Handler
  | [] => []
  | l :: rest => l.handlers ++ if l.propagate then reach rest else []

def handlersFor (r : Registry) (name : Text) : List Handler := reach (r.chain name)

def hasHandlers (r : Registry) (name : Text) : Bool := !(r.handlersFor name).isEmpty

/-- Whether records of a level pass the logger: as it was once answered, or else by its effective
    level. -/
def judge (r : Registry) (name : Text) (level : LogLevel) : Registry × Bool :=
  let key := (if isRoot name then rootName else name, level)
  match r.verdicts.lookup key with
  | some passes => (r, passes)
  | none =>
    let passes := (r.effectiveLevel name).value ≤ level.value
    ({ r with verdicts := Table.put key passes r.verdicts }, passes)

def appendJournal (place : Loc) (rec : Record) (js : List (Loc × List Record)) : List (Loc × List Record) :=
  Table.put place ((js.lookup place).getD [] ++ [rec]) js

/-- One handler's part of a record: a console line, or a line of a file that can take it. -/
def handle (rec : Record) (acc : Registry × List Text) (h : Handler) : Registry × List Text :=
  if rec.level.value < h.level.value then acc
  else
    match h with
    | .console _ => (acc.1, acc.2 ++ [rec.line])
    | .file _ place =>
      let named := if isRoot rec.logger then { rec with logger := rootName } else rec
      if named.isWritable then ({ acc.1 with journals := appendJournal place named acc.1.journals }, acc.2) else acc

def log (r : Registry) (rec : Record) : Registry × List Text :=
  match (r.touch rec.logger).judge rec.logger rec.level with
  | (r, false) => (r, [])
  | (r, true) =>
    match r.handlersFor rec.logger with
    | [] => (r, if LogLevel.warning.value ≤ rec.level.value then [rec.message] else [])
    | handlers => handlers.foldl (handle rec) (r, [])

/-! ## Setting up -/

def addHandler (r : Registry) (name : Text) (h : Handler) : Registry :=
  r.update name fun l => { l with handlers := l.handlers ++ [h] }

def setOwnLevel (r : Registry) (name : Text) (level : LogLevel) : Registry :=
  { r.update name fun l => { l with level := some level } with verdicts := [] }

def setLevel (r : Registry) (name : Text) (level : LogLevel) : Registry :=
  (r.setOwnLevel name level).update name fun l =>
    { l with handlers := l.handlers.map (Handler.withLevel level) }

def stopPropagation (r : Registry) (name : Text) : Registry :=
  r.update name fun l => { l with propagate := false }

/-- Sets the level, and adds a console handler unless there is one. -/
def setupConsole (r : Registry) (name : Text) (level : LogLevel) : Registry :=
  let r := r.setOwnLevel name level
  if (r.logger name).handlers.any Handler.isConsole then r else r.addHandler name (.console level)

/-- Whether one of the names, or the root, has handlers. They are made up to the first that has. -/
def seekHandlers (r : Registry) : List Text → Registry × Bool
  | [] => (r, !r.root.handlers.isEmpty)
  | name :: rest =>
    let r := r.touch name
    if (r.logger name).handlers.isEmpty then r.seekHandlers rest else (r, true)

/-- Asks for a logger: it is set up only if neither it nor any logger above it has handlers. -/
def request (r : Registry) (name : Text) : Registry :=
  let r := r.touch name
  if r.hasHandlers name then r
  else
    match r.seekHandlers (cuts name) with
    | (r, true) => r
    | (r, false) => r.setupConsole name .info

def report (r : Registry) (rec : Record) : Registry × List Text := (r.request rec.logger).log rec

def reportAll (r : Registry) (recs : List Record) : Registry × List Text :=
  recs.foldl (fun acc rec => let (r, lines) := acc.1.report rec; (r, acc.2 ++ lines)) (r, [])

/-- Before anything is set up: four parts of the program have asked for their loggers. -/
def start : Registry :=
  [LoggerName.config, LoggerName.renamer, LoggerName.bundler, LoggerName.reader].foldl request
    ⟨⟨some .warning, [], true, none⟩, [], [], [], []⟩

end Registry

/-! ## Log files -/

def defaultLogDirectory : Text := "logs"

/-- Opens a log file for appending, with the directories above it. -/
def openLog (d : Disk) (cwd : Loc) (p : Path) : Disk × Except FileError Loc :=
  if d.isAdrift cwd p then (d, .error (.badPath .noWorkingDirectory))
  else
    match d.ensureDir cwd p.parent with
    | (d, .error e) => (d, .error e)
    | (d, .ok ()) =>
      let full := Path.ofLoc (p.resolveLoc cwd)
      match d.stat cwd full with
      | .ok (.file _) => (d, .ok (full.place cwd))
      | _ =>
        match d.writeContents cwd full [] with
        | .error e => (d, .error e)
        | .ok d => (d, .ok (full.place cwd))

def levelOf (text : Text) : Except LogError LogLevel :=
  match LogLevel.ofName? text with
  | some l => .ok l
  | none => .error (.badLevel text)

structure LogWorld where
  disk : Disk
  registry : Registry

namespace LogWorld

def addFile (w : LogWorld) (cwd : Loc) (name : Text) (p : Path) (level : Text) : LogWorld × Except LogError Unit :=
  match levelOf level with
  | .error e => (w, .error e)
  | .ok l =>
    match openLog w.disk cwd p with
    | (d, .error e) => ({ w with disk := d }, .error (.badFile e))
    | (d, .ok place) => (⟨d, w.registry.addHandler name (.file l place)⟩, .ok ())

/-- Sets up a logger with a console handler and, if a path is given, a file handler for every
    level. A handler of a kind that is there already is not added. -/
def setup (w : LogWorld) (cwd : Loc) (name level : Text) (file : Option Path) : LogWorld × Except LogError Unit :=
  match levelOf level with
  | .error e => (w, .error e)
  | .ok l =>
    let hasFile := (w.registry.logger name).handlers.any fun h => !h.isConsole
    let w := { w with registry := w.registry.setupConsole name l }
    match file with
    | none => (w, .ok ())
    | some p => if hasFile then (w, .ok ()) else w.addFile cwd name p LogLevel.debug.label

end LogWorld

end JsonnetLocals
