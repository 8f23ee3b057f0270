/-
  JsonnetLocals.Files.Path — paths as texts spell them.

  A path is an anchor and the names after it: empty names and `.` are dropped, `..` is kept. Two
  leading slashes are an anchor of their own; three or more are one. `Path.resolve` gives the
  absolute path without `..`, which for trees without links is the place that the path means. A
  path with a null character, or with a name that has no bytes, means no place.
-/

import JsonnetLocals.Text.Case
import JsonnetLocals.Text.Encoding
import JsonnetLocals.Text.Split

namespace JsonnetLocals

/-- A place in the tree of files: the names from the top down. -/
abbrev Loc := List Text

inductive Anchor where
  | relative
  | absolute
  | doubled
  deriving DecidableEq, Repr

def Anchor.text : Anchor → Text
  | relative => ""
  | absolute => "/"
  | doubled => "//"

structure Path where
  anchor : Anchor
  parts : List Text
  deriving DecidableEq, Repr

inductive PathError where
  /-- A path whose text is blank. -/
  | blank
  /-- `~` with no home directory. -/
  | noHome
  /-- A null character in the path. -/
  | nullByte
  /-- A name that has no bytes. -/
  | unencodable (u : Unencodable)
  | notBelow (path base : Text)
  /-- Links that lead back to themselves. -/
  | linkLoop (path : Text)
  | noWorkingDirectory
  deriving DecidableEq, Repr

def PathError.message : PathError → String
  | blank => "Path cannot be None or empty"
  | noHome => "Could not determine home directory."
  | nullByte => "embedded null byte"
  | unencodable u => u.message
  | notBelow path base =>
    path.quoted ++ " is not in the subpath of " ++ base.quoted ++ " OR one path is relative and the other is absolute."
  | linkLoop path => "Symlink loop from " ++ path.quoted
  | noWorkingDirectory => "[Errno 2] No such file or directory"

def PathError.isFlaw : PathError → Bool
  | nullByte | unencodable _ => true
  | _ => false

structure Environment where
  cwd : Loc
  home : Text
  /-- The home directories of other users. -/
  accounts : List (Text × Text)

namespace Path

def anchorOf (slashes : Nat) : Anchor :=
  if slashes = 0 then .relative else if slashes = 2 then .doubled else .absolute

def ofText (t : Text) : Path :=
  ⟨anchorOf (t.chars.takeWhile (· == '/')).length, (t.splitOn '/').filter fun p => p ≠ "" && p ≠ "."⟩

def spelled (p : Path) : Text := p.anchor.text ++ Text.intercalate "/" p.parts

def text (p : Path) : Text := if p.anchor = .relative ∧ p.parts = [] then "." else p.spelled

def ofLoc (l : Loc) : Path := ⟨.absolute, l⟩

def name (p : Path) : Text := p.parts.getLastD ""

/-- A name without and with only its extension: the part from its last dot, unless that dot begins
    or ends the name. -/
def splitName (name : Text) : Text × Text :=
  let dot := '.'.toNat
  let rev := name.codes.reverse
  let ext := rev.takeWhile (· ≠ dot)
  let stem := (rev.dropWhile (· ≠ dot)).drop 1
  if ext.isEmpty || stem.isEmpty then (name, "") else (⟨stem.reverse⟩, ⟨dot :: ext.reverse⟩)

def stem (p : Path) : Text := (splitName p.name).1

def suffix (p : Path) : Text := (splitName p.name).2

def extension (p : Path) : Text := p.suffix.lower

def parent (p : Path) : Path := { p with parts := p.parts.dropLast }

/-- `q` taken from `p`: an anchored path stands for itself. -/
def join (p q : Path) : Path := if q.anchor = .relative then { p with parts := p.parts ++ q.parts } else q

def child (p : Path) (name : Text) : Path := p.join (ofText name)

def relativeTo (p base : Path) : Except PathError Path :=
  if p.anchor = base.anchor ∧ base.parts.isPrefixOf p.parts then .ok ⟨.relative, p.parts.drop base.parts.length⟩
  else .error (.notBelow p.text base.spelled)

/-! ## The place of a path -/

def up : Text := ".."

def stepLoc (l : Loc) (part : Text) : Loc := if part = up then l.dropLast else l ++ [part]

/-- Where the path goes from the working directory, by its names alone. -/
def resolveLoc (cwd : Loc) (p : Path) : Loc := p.parts.foldl stepLoc (if p.anchor = .relative then cwd else [])

def place (cwd : Loc) (p : Path) : Loc := (p.resolveLoc cwd).map Text.storedName

def nullChar : Char := Char.ofNat 0

/-- Why a text is not the name of a file, when `before` code points stand in front of it. -/
def nameFlaw (before : Nat) (name : Text) : Option PathError :=
  match name.encodeName with
  | .error u => some (.unencodable (u.shift before))
  | .ok _ => if name.contains nullChar then some .nullByte else none

/-- The way so far, one name back. Above its start a relative way goes on with `..`. -/
def back (p : Path) : Path :=
  if p.anchor = .relative ∧ (p.parts.getLast?).all (· = up) then { p with parts := p.parts ++ [up] } else p.parent

/-- The first fault of the names of a path. Each is looked at with the way that leads to it. -/
def flawAfter (way : Path) : List Text → Option PathError
  | [] => none
  | name :: rest =>
    if name = up then flawAfter way.back rest
    else
      let step : Path := { way with parts := way.parts ++ [name] }
      match nameFlaw (step.spelled.length - name.length) name with
      | some e => some e
      | none => flawAfter step rest

def flaw (p : Path) : Option PathError :=
  flawAfter ⟨if p.anchor = .relative then .relative else .absolute, []⟩ p.parts

def resolve (cwd : Loc) (p : Path) : Except PathError Path :=
  match p.flaw with
  | some e => .error e
  | none => .ok (ofLoc (p.resolveLoc cwd))

def homeOf (env : Environment) (first : Text) : Except PathError Text :=
  let user : Text := ⟨first.codes.drop 1⟩
  if user.isEmpty then .ok env.home
  else
    match nameFlaw 0 user with
    | some e => .error e
    | none =>
      match env.accounts.lookup user with
      | some home => .ok home
      | none => .error .noHome

def expandUser (env : Environment) (p : Path) : Except PathError Path :=
  match p.anchor, p.parts with
  | .relative, first :: rest =>
    if first.chars.head? = some '~' then
      match homeOf env first with
      | .error e => .error e
      | .ok home =>
        let base := ofText home
        .ok { base with parts := base.parts ++ rest }
    else .ok p
  | _, _ => .ok p

def normalize (env : Environment) (p : Path) : Except PathError Path :=
  p.expandUser env >>= resolve env.cwd

def normalizeText (env : Environment) (t : Text) : Except PathError Path :=
  if t.chars.all Text.isBlank then .error .blank else (ofText t).normalize env

/-- The way from the place of `base` down to the place of `p`. -/
def below (cwd : Loc) (p base : Path) : Except PathError Path := do
  let place ← p.resolve cwd
  let top ← base.resolve cwd
  place.relativeTo top

def isBelow (cwd : Loc) (p base : Path) : Bool :=
  match p.below cwd base with
  | .ok _ => true
  | .error _ => false

def sourceExtensions : List Text := [".jsonnet", ".libsonnet", ".json"]

def hasSourceExtension (p : Path) : Bool := sourceExtensions.contains p.extension

end Path

/-- What identifies a file: its path below the root, or else its path as given. -/
def fileIdentity (cwd : Loc) (p : Path) (root : Option Path) : Text :=
  match root with
  | none => p.text
  | some r =>
    match p.below cwd r with
    | .ok q => q.text
    | .error _ => p.text

end JsonnetLocals
