/-
  JsonnetLocals.Cli.Arguments — reading a command line.

  The words are sorted first: options, values, and `--`, after which all are values. Then they are
  taken from left to right. An option takes its value from its own word (`--opt=value`, `-oDIR`) or
  from the next one; the value `--` counts as none. The first run of values between options are the
  files; later ones are left over. Long options may be cut short as long as one option is meant.
-/

import JsonnetLocals.Cli.Options

namespace JsonnetLocals.Cli

inductive Given where
  | text (s : Text)
  /-- The value `--`, which is dropped and leaves an empty list. -/
  | nothing
  deriving DecidableEq, Repr

def Given.ofWord (s : Text) : Given := if s = "--" then nothing else text s

def Given.text? : Given → Option Text
  | text s => some s
  | nothing => none

structure Arguments where
  files : List Text
  outputDir : Option Given
  root : Option Given
  config : Option Given
  separator : Option Given
  noHeader : Bool
  conflict : Option Given
  logLevel : Option Given
  logFile : Option Given
  deriving DecidableEq, Repr

def Arguments.empty : Arguments := ⟨[], none, none, none, none, false, none, none, none⟩

inductive Stop where
  | help
  | version
  | misuse (m : Misuse)
  deriving DecidableEq, Repr

/-! ## Sorting the words -/

inductive Word where
  | value (s : Text)
  /-- An option as it is spelled in full, and what follows it in its own word. -/
  | option (f : Flag) (spelling : Text) (own : Option Text)
  /-- A word that looks like an option and is none. -/
  | unknown (s : Text)
  /-- The word `--`. -/
  | divider
  deriving DecidableEq, Repr

namespace Word

def isOption : Word → Bool
  | option _ _ _ | unknown _ => true
  | _ => false

/-- The word as it was written, for words that are no options. -/
def text : Word → Text
  | value s | unknown s => s
  | option _ spelling _ => spelling
  | divider => "--"

/-- What stands before and after the first `=`. -/
def splitOwn (s : Text) : Text × Option Text :=
  let before := s.codes.takeWhile (· ≠ '='.toNat)
  match s.codes.drop before.length with
  | [] => (s, none)
  | _ :: after => (⟨before⟩, some ⟨after⟩)

/-- The options that a word may mean when it spells none in full. -/
def candidates (s : Text) : List (Flag × Text × Option Text) :=
  if Text.isPrefixOf "--" s then
    let (start, own) := splitOwn s
    (Flag.table.filter fun e => start.isPrefixOf e.1).map fun e => (e.2, e.1, own)
  else (Flag.table.filter fun e => e.1.codes == s.codes.take 2).map fun e => (e.2, e.1, some ⟨s.codes.drop 2⟩)

/-- Whether a word is a negative number: digits, or a point with digits after it. A line end may
    follow. -/
def isNegativeNumber (s : Text) : Bool :=
  match s.chars with
  | '-' :: rest =>
    let rest := if rest.getLast? = some '\n' then rest.dropLast else rest
    let after := rest.dropWhile Text.isDecimal
    (!rest.isEmpty && after.isEmpty) ||
      match after with
      | '.' :: digits => !digits.isEmpty && digits.all Text.isDecimal
      | _ => false
  | _ => false

/-- What a word before `--` is. -/
def sort (s : Text) : Except Misuse Word :=
  match s.chars with
  | '-' :: _ :: _ =>
    match Flag.table.lookup s with
    | some f => .ok (option f s none)
    | none =>
      let (start, own) := splitOwn s
      match own, Flag.table.lookup start with
      | some v, some f => .ok (option f start (some v))
      | _, _ =>
        match candidates s with
        | [(f, spelling, own)] => .ok (option f spelling own)
        | [] => .ok (if isNegativeNumber s || s.contains ' ' then value s else unknown s)
        | several => .error (.ambiguous s (several.map fun c => c.2.1))
  | _ => .ok (value s)

def sortAll : List Text → Except Misuse (List Word)
  | [] => .ok []
  | s :: rest =>
    if s = "--" then .ok (divider :: rest.map value)
    else
      match sort s with
      | .error m => .error m
      | .ok w =>
        match sortAll rest with
        | .error m => .error m
        | .ok ws => .ok (w :: ws)

end Word

/-! ## Taking options -/

structure Opened where
  /-- Those before the last. They take no value. -/
  before : List Flag
  last : Flag
  /-- The value of the last one, if the word has it. -/
  value : Option Text

/-- Opens a word that goes on after an option `f`. A value that is not wanted is an error, unless it
    begins with the letter of another short option. -/
def openCluster (before : List Flag) (f : Flag) (isShort : Bool) : List Nat → Except Misuse Opened
  | [] => if f.takesValue then .ok ⟨before, f, some ""⟩ else .error (.strayValue f "")
  | c :: more =>
    if f.takesValue then .ok ⟨before, f, some ⟨c :: more⟩⟩
    else if !isShort then .error (.strayValue f ⟨c :: more⟩)
    else
      match Flag.table.lookup ⟨['-'.toNat, c]⟩, more with
      | none, _ => .error (.strayValue f ⟨c :: more⟩)
      | some next, [] => .ok ⟨before ++ [f], next, none⟩
      | some next, d :: own => openCluster (before ++ [f]) next true (d :: own)

def openWord (f : Flag) (spelling : Text) : Option Text → Except Misuse Opened
  | none => .ok ⟨[], f, none⟩
  | some own => openCluster [] f (spelling.length == 2) own.codes

namespace Arguments

def takeFlag (a : Arguments) : Flag → Except Stop Arguments
  | .help => .error .help
  | .version => .error .version
  | .noHeader => .ok { a with noHeader := true }
  | _ => .ok a

def takeFlags (a : Arguments) : List Flag → Except Stop Arguments
  | [] => .ok a
  | f :: rest =>
    match a.takeFlag f with
    | .error s => .error s
    | .ok a => a.takeFlags rest

/-- The value of an option: log levels are read in any case, and a choice must be one. -/
def readValue (f : Flag) : Given → Except Stop Given
  | .nothing => .ok .nothing
  | .text s =>
    let s := if f = .logLevel then s.upper else s
    match f.choices with
    | some choices => if choices.contains s then .ok (.text s) else .error (.misuse (.notAChoice f s choices))
    | none => .ok (.text s)

def store (a : Arguments) (v : Given) : Flag → Arguments
  | .outputDir => { a with outputDir := some v }
  | .root => { a with root := some v }
  | .config => { a with config := some v }
  | .separator => { a with separator := some v }
  | .conflict => { a with conflict := some v }
  | .logLevel => { a with logLevel := some v }
  | .logFile => { a with logFile := some v }
  | _ => a

/-- Takes the options before one with a value, then that one. -/
def takeValue (a : Arguments) (before : List Flag) (f : Flag) (s : Text) : Except Stop Arguments :=
  match a.takeFlags before with
  | .error stop => .error stop
  | .ok a =>
    match readValue f (.ofWord s) with
    | .error stop => .error stop
    | .ok v => .ok (a.store v f)

end Arguments

/-! ## Taking all words -/

structure Taking where
  args : Arguments
  hasFiles : Bool
  /-- Words that nothing takes. -/
  extras : List Text

namespace Taking

/-- Takes a run of words that are no options: the files, once. -/
def takeRun (t : Taking) (run : List Word) : Taking :=
  if t.hasFiles || run.all (· == .divider) then { t with extras := t.extras ++ run.map Word.text }
  else { t with args := { t.args with files := (run.map Word.text).erase "--" }, hasFiles := true }

def finish (t : Taking) : Except Stop Arguments :=
  if !t.hasFiles then .error (.misuse .noFiles)
  else if !t.extras.isEmpty then .error (.misuse (.unrecognized t.extras))
  else .ok t.args

def withArgs (t : Taking) : Except Stop Arguments → Except Stop Taking
  | .error s => .error s
  | .ok a => .ok { t with args := a }

def takeAll (t : Taking) : List Word → Except Stop Arguments
  | [] => t.finish
  | .unknown s :: rest => { t with extras := t.extras ++ [s] }.takeAll rest
  | .option f spelling own :: rest =>
    match openWord f spelling own with
    | .error m => .error (.misuse m)
    | .ok ⟨before, f, some s⟩ =>
      match t.withArgs (t.args.takeValue before f s) with
      | .error stop => .error stop
      | .ok t => t.takeAll rest
    | .ok ⟨before, f, none⟩ =>
      if f.takesValue then
        match rest with
        | .value s :: rest =>
          match t.withArgs (t.args.takeValue before f s) with
          | .error stop => .error stop
          | .ok t => t.takeAll rest
        | _ => .error (.misuse (.noValue f))
      else
        match t.withArgs (t.args.takeFlags (before ++ [f])) with
        | .error stop => .error stop
        | .ok t => t.takeAll rest
  | w :: rest => (t.takeRun (w :: rest.takeWhile fun x => !x.isOption)).takeAll (rest.dropWhile fun x => !x.isOption)
termination_by ws => ws.length
decreasing_by
  all_goals
    have := (List.dropWhile_sublist (l := rest) fun x => !x.isOption).length_le
    simp only [List.length_cons]
    omega

end Taking

def readArguments (argv : List Text) : Except Stop Arguments :=
  match Word.sortAll argv with
  | .error m => .error (.misuse m)
  | .ok words => Taking.takeAll ⟨.empty, false, []⟩ words

end JsonnetLocals.Cli
