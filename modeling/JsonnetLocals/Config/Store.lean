/-
  JsonnetLocals.Config.Store — settings in files.

  `Config.load` reads an object, makes a draft of it and checks it; `Draft.save` checks first and
  then writes the object, so a file that was saved can be loaded.
-/

import JsonnetLocals.Config.Settings
import JsonnetLocals.Files.Disk
import JsonnetLocals.Json.Reader

namespace JsonnetLocals

inductive StoreError where
  | file (e : FileError)
  | notUtf8 (part : Utf8.Malformed)
  | notJson (path : Text) (message : String)
  | longInteger (message : String)
  | notObject (path : Text)
  | invalid (e : ConfigError)

namespace StoreError

def message : StoreError → Text
  | file e => e.message
  | notUtf8 part => part.message
  | notJson path message => "Invalid JSON in configuration file " ++ path ++ ": " ++ message
  | longInteger message => message
  | notObject path => "Configuration file " ++ path ++ " must contain a JSON object"
  | invalid e => e.message

/-- Whether the error tells what is wrong with the settings or their file. -/
def isReport : StoreError → Bool
  | invalid (.lookupStrategy _) => false
  | _ => true

end StoreError

namespace Config

def ofBytes (path : Text) (data : Bytes) : Except StoreError Config :=
  match Utf8.decode data with
  | .error part => .error (.notUtf8 part)
  | .ok cs =>
    let text := Text.plainLines cs
    match Json.read text with
    | .error f => .error (if f.isSyntax then .notJson path (f.message text) else .longInteger (f.message text))
    | .ok (.obj fields) =>
      match Draft.ofObject fields >>= Draft.check with
      | .error e => .error (.invalid e)
      | .ok c => .ok c
    | .ok _ => .error (.notObject path)

def load (d : Disk) (cwd : Loc) (p : Path) : Except StoreError Config :=
  match d.contents cwd p with
  | .error e => .error (.file e)
  | .ok data => ofBytes p.text data

def loaded (c : Config) (p : Path) : Record :=
  ⟨LoggerName.config, .info, "Loaded configuration '" ++ c.name ++ "' from " ++ p.text⟩

def saved (c : Config) (p : Path) : Record :=
  ⟨LoggerName.config, .info, "Saved configuration '" ++ c.name ++ "' to " ++ p.text⟩

end Config

namespace Draft

def fileText (d : Draft) : String := (Json.obj d.toFields).write ++ "\n"

def save (disk : Disk) (cwd : Loc) (p : Path) (d : Draft) : Disk × Except StoreError Config :=
  match d.check with
  | .error e => (disk, .error (.invalid e))
  | .ok c =>
    match disk.ensureDir cwd p.parent with
    | (disk, .error e) => (disk, .error (.file e))
    | (disk, .ok ()) =>
      match disk.writeContents cwd p (Utf8.encode d.fileText) with
      | .error e => (disk, .error (.file e))
      | .ok disk => (disk, .ok c)

end Draft

end JsonnetLocals
