/-
  JsonnetLocals.Main — the command.

  Takes a picture of the files that a run may touch, runs the program on it, and carries the
  changes back. Each changed file is written beside its place and then moved there.
-/

import JsonnetLocals.Cli.Program

namespace JsonnetLocals.Command

def namedPaths (a : Cli.Arguments) : List Path :=
  (a.files ++ [a.config, a.logFile].filterMap fun given => given >>= Cli.Given.text?).map Path.ofText

def textOf (l : Loc) : String := (Path.ofLoc l).text.lossy

def placesTo (l : Loc) : List Loc := (List.range (l.length + 1)).map fun n => l.take n

/-- Adds what is at a place to the picture. A file that cannot be read is there and denied. -/
def look (d : Disk) (l : Loc) : IO Disk := do
  if (d.get? l).isSome then return d
  let path := (← IO.currentDir) / textOf l
  if ← path.isDir then return d.put l .dir
  if ← path.pathExists then
    try
      return d.put l (.file (← IO.FS.readBinFile path))
    catch _ =>
      return { d.put l (.file ByteArray.empty) with denied := d.denied ++ [l] }
  return d

def lookAlong (d : Disk) (l : Loc) : IO Disk := (placesTo l).foldlM look d

def lookBelow (d : Disk) (l : Loc) : IO Disk := do
  let path := (← IO.currentDir) / textOf l
  if ← path.isDir then
    (← path.walkDir).toList.foldlM (fun d p => lookAlong d (Path.ofText p.toString).parts) d
  else return d

def now : IO Moment := do
  let (_, path) ← IO.FS.createTempFile
  let made := (← path.metadata).modified
  IO.FS.removeFile path
  return Moment.ofEpoch made.sec

/-- Writes a file beside its place and moves it there. -/
def replaceFile (l : Loc) (data : ByteArray) : IO Unit := do
  let path := textOf l
  IO.FS.writeBinFile (path ++ ".part") data
  IO.FS.rename (path ++ ".part") path

/-- Carries an entry back if the run made or changed it. -/
def carryBack (before : Disk) (l : Loc) (e : Entry) : IO Unit :=
  match before.get? l, e with
  | some .dir, .dir => pure ()
  | _, .dir => IO.FS.createDirAll (textOf l)
  | some (.file old), .file new => if old.data == new.data then pure () else replaceFile l new
  | _, .file new => replaceFile l new

def appendLogs (time : Moment) (journals : List (Loc × List Record)) : IO Unit :=
  journals.forM fun (l, records) => do
    let file ← IO.FS.Handle.mk (textOf l) .append
    records.forM fun r =>
      file.putStrLn (time.wall.dateTime ++ " - " ++ r.logger ++ " - " ++ r.level.label ++ " - " ++ r.message : Text).lossy

def picture (env : Environment) (argv : List Text) : IO Disk := do
  let d ← lookAlong ⟨[], []⟩ env.cwd
  match Cli.readArguments argv with
  | .error _ => return d
  | .ok a =>
    let d ← (namedPaths a).foldlM (fun d p => lookAlong d (p.resolveLoc env.cwd)) d
    match (a.settings d env.cwd).2 with
    | .error _ => return d
    | .ok c =>
      match (Path.ofText c.outputDir).normalize env with
      | .error _ => return d
      | .ok dir => lookBelow (← lookAlong d dir.parts) dir.parts

end JsonnetLocals.Command

open JsonnetLocals in
def main (argv : List String) : IO UInt32 := do
  let cwd := (Path.ofText (← IO.currentDir).toString).parts
  let home := (← IO.getEnv "HOME").getD "/"
  let argv := argv.map Text.ofString
  let env : Environment := ⟨cwd, home, [("root", "/root")]⟩
  let time ← Command.now
  let before ← Command.picture env argv
  let finish := Cli.run ⟨argv, env, time, .none⟩ before
  finish.session.disk.entries.forM fun (l, e) => Command.carryBack before l e
  Command.appendLogs time finish.session.registry.journals
  IO.print finish.session.stdout.lossy
  IO.eprint finish.session.stderr.lossy
  match finish.status with
  | .ok status => return status.toUInt32
  | .error e =>
    IO.eprintln e.message.lossy
    return 1
