/-
  JsonnetLocals.Cli.Options — the options of the command line and its texts.
-/

import JsonnetLocals.Config.Settings

namespace JsonnetLocals.Cli

def appName : String := "jsonnet-bundler"

def appVersion : String := "0.1.0"

inductive Flag where
  | help
  | outputDir
  | root
  | config
  | separator
  | noHeader
  | conflict
  | logLevel
  | logFile
  | version
  deriving DecidableEq, Repr

namespace Flag

def all : List Flag :=
  [help, outputDir, root, config, separator, noHeader, conflict, logLevel, logFile, version]

def spellings : Flag → List Text
  | help => ["-h", "--help"]
  | outputDir => ["-o", "--output-dir"]
  | root => ["--root"]
  | config => ["--config"]
  | separator => ["--separator"]
  | noHeader => ["--no-header"]
  | conflict => ["--conflict"]
  | logLevel => ["--log-level"]
  | logFile => ["--log-file"]
  | version => ["--version"]

def title (f : Flag) : Text := Text.intercalate "/" f.spellings

def takesValue : Flag → Bool
  | help | noHeader | version => false
  | _ => true

def choices : Flag → Option (List Text)
  | conflict => some (ConflictStrategy.all.map ConflictStrategy.label)
  | logLevel => some (LogLevel.all.map LogLevel.label)
  | _ => none

/-- Every spelling with its option, in the order of the options. -/
def table : List (Text × Flag) := all.flatMap fun f => f.spellings.map fun s => (s, f)

end Flag

inductive Misuse where
  /-- The beginning of several options. -/
  | ambiguous (given : Text) (candidates : List Text)
  | noValue (f : Flag)
  /-- A value for an option that takes none. -/
  | strayValue (f : Flag) (value : Text)
  | notAChoice (f : Flag) (value : Text) (choices : List Text)
  | noFiles
  | unrecognized (args : List Text)
  deriving DecidableEq, Repr

def Misuse.message : Misuse → Text
  | ambiguous given candidates =>
    "ambiguous option: " ++ given ++ " could match " ++ Text.intercalate ", " candidates
  | noValue f => "argument " ++ f.title ++ ": expected one argument"
  | strayValue f value => "argument " ++ f.title ++ ": ignored explicit argument " ++ value.quoted
  | notAChoice f value choices =>
    "argument " ++ f.title ++ ": invalid choice: " ++ value.quoted ++ " (choose from " ++
      String.intercalate ", " (choices.map Text.quoted) ++ ")"
  | noFiles => "the following arguments are required: FILE"
  | unrecognized args => "unrecognized arguments: " ++ Text.intercalate " " args

/-! ## Texts -/

def usage : String := String.intercalate "\n" [
  "usage: jsonnet-bundler [-h] [-o OUTPUT_DIR] [--root ROOT] [--config CONFIG]",
  "                       [--separator SEPARATOR] [--no-header]",
  "                       [--conflict \x7boverwrite,rename,skip\x7d]",
  "                       [--log-level \x7bDEBUG,INFO,WARNING,ERROR,CRITICAL\x7d]",
  "                       [--log-file LOG_FILE] [--version]",
  "                       FILE [FILE ...]",
  ""]

def help : String := usage ++ String.intercalate "\n" [
  "",
  "Prefix Jsonnet local variables per file so files can be bundled together.",
  "",
  "positional arguments:",
  "  FILE                  Jsonnet files to process",
  "",
  "options:",
  "  -h, --help            show this help message and exit",
  "  -o OUTPUT_DIR, --output-dir OUTPUT_DIR",
  "                        output directory (default: output)",
  "  --root ROOT           project root; identities and output layout are",
  "                        relative to it",
  "  --config CONFIG       JSON configuration file",
  "  --separator SEPARATOR",
  "                        text between the file prefix and the original name",
  "  --no-header           do not prepend the provenance comment",
  "  --conflict \x7boverwrite,rename,skip\x7d",
  "                        what to do with existing output files",
  "  --log-level \x7bDEBUG,INFO,WARNING,ERROR,CRITICAL\x7d",
  "                        logging level",
  "  --log-file LOG_FILE   also write a detailed log to this file",
  "  --version             show program's version number and exit",
  ""]

def errorLine (message : Text) : Text := appName ++ ": error: " ++ message ++ "\n"

def versionLine : String := appName ++ " " ++ appVersion ++ "\n"

end JsonnetLocals.Cli
