/-
  JsonnetLocals.Cli.Program — a run of the program.

  `run` reads the command line, loads and checks the settings, sets up the log, and renames the
  files. A command line that cannot be used and settings that are wrong give status 2, a fatal error
  of the inputs or of the file system gives status 1. An `Escape` is a failure that has no status.
-/

import JsonnetLocals.Bundle.Run
import JsonnetLocals.Cli.Arguments
import JsonnetLocals.Config.Store
import JsonnetLocals.Log.Registry

namespace JsonnetLocals.Cli

/-! ## Settings -/

def Given.json : Given → Json
  | text s => .str s
  | nothing => .arr []

def Arguments.override (a : Arguments) (d : Draft) : Draft :=
  let pick (given : Option Given) (v : Json) : Json := (given.map Given.json).getD v
  { d with
    outputDir := pick a.outputDir d.outputDir
    projectRoot := pick a.root d.projectRoot
    separator := pick a.separator d.separator
    addHeader := if a.noHeader then .bool false else d.addHeader
    conflictStrategy := pick a.conflict d.conflictStrategy
    logLevel := pick a.logLevel d.logLevel }

/-- The settings of the file that the command line names, or the default ones. -/
def Arguments.base (a : Arguments) (d : Disk) (cwd : Loc) : Except StoreError (Draft × List Record) :=
  match a.config >>= Given.text? with
  | some s =>
    let p := Path.ofText s
    match Config.load d cwd p with
    | .error e => .error e
    | .ok c => .ok (c.draft, [c.loaded p])
  | none => .ok (.default, [])

def Arguments.settings (a : Arguments) (d : Disk) (cwd : Loc) : List Record × Except StoreError Config :=
  match a.base d cwd with
  | .error e => ([], .error e)
  | .ok (draft, log) =>
    (log, match (a.override draft).check with
      | .error e => .error (.invalid e)
      | .ok c => .ok c)

/-! ## The run -/

/-- A failure that becomes no status. -/
inductive Escape where
  | settings (e : StoreError)
  | log (e : LogError)
  | run (e : RunError)

def Escape.message : Escape → Text
  | settings e => e.message
  | log e => e.message
  | run e => e.message

structure Invocation where
  argv : List Text
  env : Environment
  now : Moment
  faults : Faults

structure Session where
  disk : Disk
  registry : Registry
  stdout : Text
  stderr : Text

structure Finish where
  session : Session
  status : Except Escape Nat

namespace Session

def start (d : Disk) : Session := ⟨d, .start, "", ""⟩

def toLines (lines : List Text) : Text := Text.join (lines.map (· ++ "\n"))

/-- Reports records; the console is the error output. -/
def report (s : Session) (recs : List Record) : Session :=
  let (r, lines) := s.registry.reportAll recs
  { s with registry := r, stderr := s.stderr ++ toLines lines }

def print (s : Session) (text : Text) : Session := { s with stdout := s.stdout ++ text }

def printError (s : Session) (text : Text) : Session := { s with stderr := s.stderr ++ text }

def note (level : LogLevel) (message : Text) : Record := ⟨LoggerName.app, level, message⟩

def setupLog (s : Session) (cwd : Loc) (level : Text) (file : Option Given) : Session × Except LogError Unit :=
  let path := (file >>= Given.text?).map Path.ofText
  let (world, result) := LogWorld.setup ⟨s.disk, s.registry⟩ cwd LoggerName.app level path
  let s := { s with disk := world.disk, registry := world.registry }
  match result, file with
  | .ok (), some .nothing => (s, .error .noFile)
  | _, _ => (s, result)

def resultLine (f : FileResult) : Text :=
  f.input.text ++ " -> " ++ ((f.output.map Path.text).getD "skipped") ++ " (" ++ f.tag ++ ")\n"

def conclude (s : Session) : Except RunError BundleResult → Finish
  | .ok result => ⟨s.print (Text.join (result.files.map resultLine)), .ok 0⟩
  | .error (.refused r) => ⟨s.report (r.errors.map (note .error)), .ok 1⟩
  | .error (.file e) =>
    if e.isOs then ⟨s.report [note .error ("I/O error: " ++ e.message)], .ok 1⟩ else ⟨s, .error (.run (.file e))⟩
  | .error e => ⟨s, .error (.run e)⟩

/-- Without what was appended to log files in whose place another file was written. -/
def forgetReplaced (s : Session) (written : List Loc) : Session :=
  let journals := s.registry.journals.filter fun j => !written.contains j.1
  { s with registry := { s.registry with journals } }

def bundle (s : Session) (i : Invocation) (a : Arguments) (c : Config) : Finish :=
  match s.setupLog i.env.cwd c.logLevel a.logFile with
  | (s, .error e) => ⟨s, .error (.log e)⟩
  | (s, .ok ()) =>
    let s := s.report [note .info (appName ++ " " ++ appVersion ++ " starting")]
    let bundler : Bundler := ⟨c, i.env, Reading.defaultLimit, i.now.toUtc, i.now.wall, i.faults⟩
    let (scene, result) := bundler.run (a.files.map Path.ofText) s.disk
    let finish := ({ s with disk := scene.disk }.report scene.log).conclude result
    { finish with session := finish.session.forgetReplaced scene.written }

end Session

def run (i : Invocation) (d : Disk) : Finish :=
  let s := Session.start d
  match readArguments i.argv with
  | .error .help => ⟨s.print help, .ok 0⟩
  | .error .version => ⟨s.print versionLine, .ok 0⟩
  | .error (.misuse m) => ⟨s.printError (usage ++ errorLine m.message), .ok 2⟩
  | .ok a =>
    let (log, settings) := a.settings d i.env.cwd
    let s := s.report log
    match settings with
    | .error e =>
      if e.isReport then ⟨s.printError (errorLine e.message), .ok 2⟩ else ⟨s, .error (.settings e)⟩
    | .ok c => s.bundle i a c

end JsonnetLocals.Cli
