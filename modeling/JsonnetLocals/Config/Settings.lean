/-
  JsonnetLocals.Config.Settings — the settings of a run.

  A `Draft` holds whatever values came in, from a file or from a command line. `Draft.check` is the
  one place where they are checked, in a fixed order, and gives the `Config` that a run works with.
  `Config.draft` goes back.
-/

import JsonnetLocals.Json.Value
import JsonnetLocals.Log.Record
import JsonnetLocals.Rename.Naming

namespace JsonnetLocals

inductive ConflictStrategy where
  | overwrite
  | rename
  | skip
  deriving DecidableEq, Repr

namespace ConflictStrategy

def label : ConflictStrategy → Text
  | overwrite => "overwrite"
  | rename => "rename"
  | skip => "skip"

def all : List ConflictStrategy := [overwrite, rename, skip]

def ofLabel? (t : Text) : Option ConflictStrategy := all.find? fun c => c.label == t

end ConflictStrategy

/-- Settings that passed the check. -/
structure Config where
  name : Text
  outputDir : Text
  /-- What stands between the tag of a file and a name. -/
  separator : Text
  addHeader : Bool
  conflictStrategy : ConflictStrategy
  projectRoot : Option Text
  /-- The name of a log level, in any case. -/
  logLevel : Text
  deriving DecidableEq, Repr

/-- Settings before the check. -/
structure Draft where
  version : Json
  name : Json
  outputDir : Json
  separator : Json
  addHeader : Json
  conflictStrategy : Json
  projectRoot : Json
  logLevel : Json

inductive ConfigError where
  | missingVersion
  | badVersion (given : Json)
  | badName
  | badOutputDir
  | separatorNotText
  | badSeparator (given : Text)
  | badAddHeader
  /-- A strategy that is a list or an object, which cannot be looked up. -/
  | lookupStrategy (isList : Bool)
  | badStrategy (given : Json)
  | badProjectRoot
  | badLogLevel (given : Json)

def configVersion : String := "1.0"

def ConfigError.message : ConfigError → Text
  | missingVersion => Text.quoted "Missing required field in configuration: 'version'"
  | badVersion v => "Invalid version: " ++ v.shown ++ ". Expected '" ++ configVersion ++ "'"
  | badName => "Option 'name' must be a non-empty string"
  | badOutputDir => "Option 'output_dir' must be a non-empty string"
  | separatorNotText => "Option 'separator' must be a string"
  | badSeparator s => "Invalid separator: " ++ s.quoted ++ ". Only letters, digits and underscores are allowed"
  | badAddHeader => "Option 'add_header' must be a boolean"
  | lookupStrategy isList => "unhashable type: '" ++ (if isList then "list" else "dict") ++ "'"
  | badStrategy v =>
    "Invalid conflict_strategy: " ++ v.shown ++ ". Expected one of " ++
      Text.quotedList (ConflictStrategy.all.map ConflictStrategy.label)
  | badProjectRoot => "Option 'project_root' must be a string or None"
  | badLogLevel v =>
    "Invalid log_level: " ++ v.shown ++ ". Expected one of " ++ Text.quotedList (LogLevel.all.map LogLevel.label)

def isSeparatorChar (c : Char) : Bool := c.isAlphanum || c == '_'

namespace Draft

/-! ## To and from an object -/

def default : Draft :=
  ⟨.str configVersion, .str "default", .str "output", .str defaultSeparator, .bool true,
    .str ConflictStrategy.overwrite.label, .null, .str LogLevel.info.label⟩

/-- The settings of an object; those that it does not have are the default ones. -/
def ofFields (fields : List (Text × Json)) : Draft :=
  let get (key : Text) (d : Json) : Json := (fields.lookup key).getD d
  ⟨get "version" default.version, get "name" default.name, get "output_dir" default.outputDir,
    get "separator" default.separator, get "add_header" default.addHeader,
    get "conflict_strategy" default.conflictStrategy, get "project_root" default.projectRoot,
    get "log_level" default.logLevel⟩

/-- The settings of an object that must name its version. -/
def ofObject (fields : List (Text × Json)) : Except ConfigError Draft :=
  match (Json.obj fields).get? "version" with
  | none => .error .missingVersion
  | some _ => .ok (ofFields fields)

def toFields (d : Draft) : List (Text × Json) :=
  [("version", d.version), ("name", d.name), ("output_dir", d.outputDir), ("separator", d.separator),
    ("add_header", d.addHeader), ("conflict_strategy", d.conflictStrategy), ("project_root", d.projectRoot),
    ("log_level", d.logLevel)]

/-! ## The check -/

def checkVersion : Json → Except ConfigError Unit
  | .str s => if s = configVersion then .ok () else .error (.badVersion (.str s))
  | v => .error (.badVersion v)

def checkText (e : ConfigError) : Json → Except ConfigError Text
  | .str s => if s.isEmpty then .error e else .ok s
  | _ => .error e

def checkSeparator : Json → Except ConfigError Text
  | .str s => if s.chars.all isSeparatorChar then .ok s else .error (.badSeparator s)
  | _ => .error .separatorNotText

def checkAddHeader : Json → Except ConfigError Bool
  | .bool b => .ok b
  | _ => .error .badAddHeader

def checkStrategy : Json → Except ConfigError ConflictStrategy
  | .arr _ => .error (.lookupStrategy true)
  | .obj _ => .error (.lookupStrategy false)
  | .str s =>
    match ConflictStrategy.ofLabel? s with
    | some c => .ok c
    | none => .error (.badStrategy (.str s))
  | v => .error (.badStrategy v)

def checkProjectRoot : Json → Except ConfigError (Option Text)
  | .null => .ok none
  | .str s => .ok (some s)
  | _ => .error .badProjectRoot

def checkLogLevel : Json → Except ConfigError Text
  | .str s => if (LogLevel.ofName? s).isSome then .ok s else .error (.badLogLevel (.str s))
  | v => .error (.badLogLevel v)

/-- The settings, if every one is right; else the first that is wrong. -/
def check (d : Draft) : Except ConfigError Config := do
  checkVersion d.version
  let name ← checkText .badName d.name
  let outputDir ← checkText .badOutputDir d.outputDir
  let separator ← checkSeparator d.separator
  let addHeader ← checkAddHeader d.addHeader
  let strategy ← checkStrategy d.conflictStrategy
  let root ← checkProjectRoot d.projectRoot
  let level ← checkLogLevel d.logLevel
  .ok ⟨name, outputDir, separator, addHeader, strategy, root, level⟩

end Draft

namespace Config

def draft (c : Config) : Draft :=
  ⟨.str configVersion, .str c.name, .str c.outputDir, .str c.separator, .bool c.addHeader,
    .str c.conflictStrategy.label,
    match c.projectRoot with
    | none => .null
    | some s => .str s,
    .str c.logLevel⟩

/-- The root of the project: an empty text is none. -/
def root? (c : Config) : Option Text := c.projectRoot.filter fun s => !s.isEmpty

end Config

end JsonnetLocals
