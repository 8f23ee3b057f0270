/-
  JsonnetLocals.Text.Encoding — texts as bytes.

  The content of a file is strict: a text with a lone surrogate has no bytes (`Text.encode`). The
  name of a file may hold any bytes: those that are no part of a character are read as the
  surrogates U+DC80 to U+DCFF, and such a surrogate is written as its byte (`Text.encodeName`).
  So two texts may name one file; `Text.storedName` is the name that the file then shows.
-/

import JsonnetLocals.Text.Quoted

namespace JsonnetLocals

/-- Code points from `start` up to `stop` that have no bytes. -/
structure Unencodable where
  first : Nat
  start : Nat
  stop : Nat
  deriving DecidableEq, Repr

namespace Unencodable

/-- One code point is shown, several are named by the positions of their ends. -/
def message (u : Unencodable) : String :=
  let what :=
    if u.stop = u.start + 1 then "character '" ++ Text.escapeCode u.first ++ "' in position " ++ toString u.start
    else "characters in position " ++ toString u.start ++ "-" ++ toString (u.stop - 1)
  "'utf-8' codec can't encode " ++ what ++ ": surrogates not allowed"

def shift (u : Unencodable) (n : Nat) : Unencodable := ⟨u.first, u.start + n, u.stop + n⟩

end Unencodable

namespace Text

/-- The surrogates from the first bad one on. -/
def firstBad (isBad : Nat → Bool) (t : Text) : Unencodable :=
  let start := (t.codes.takeWhile fun n => !isBad n).length
  let tail := t.codes.drop start
  ⟨tail.headD 0, start, start + (tail.takeWhile isSurrogate).length⟩

/-! ## Contents -/

def encode (t : Text) : Except Unencodable Bytes :=
  match t.string? with
  | some s => .ok (Utf8.encode s)
  | none => .error (t.firstBad isSurrogate)

@[simp]
theorem encode_ofString (s : String) : (ofString s).encode = .ok (Utf8.encode s) := by
  simp [encode]

/-! ## Names of files -/

/-- Whether a code point stands for a byte that is no part of a character. -/
def isByte (n : Nat) : Bool := 0xdc80 ≤ n && n < 0xdd00

def nameBytes? (n : Nat) : Option Bytes :=
  if isByte n then some [(n - 0xdc00).toUInt8] else (char? n).map String.utf8EncodeChar

def encodeName (t : Text) : Except Unencodable Bytes :=
  match t.codes.mapM nameBytes? with
  | some parts => .ok parts.flatten
  | none => .error (t.firstBad fun n => (nameBytes? n).isNone)

def decodeNameFrom (read : List Nat) : Bytes → List Nat
  | [] => read.reverse
  | b :: rest =>
    match Utf8.scan b rest with
    | .scalar c w => decodeNameFrom (c.toNat :: read) (rest.drop (w - 1))
    | .malformed _ w =>
      decodeNameFrom (((b :: rest).take w).reverse.map (fun x => x.toNat + 0xdc00) ++ read) (rest.drop (w - 1))
termination_by bs => bs.length
decreasing_by all_goals (simp only [List.length_drop, List.length_cons]; omega)

def decodeName (bs : Bytes) : Text := ⟨decodeNameFrom [] bs⟩

/-- How a file of this name is listed. A name without single bytes stays as it is. -/
def storedName (t : Text) : Text :=
  if t.codes.any isByte then
    match t.encodeName with
    | .ok bs => decodeName bs
    | .error _ => t
  else t

def nameSize (t : Text) : Nat :=
  match t.encodeName with
  | .ok bs => bs.length
  | .error _ => 0

end Text

end JsonnetLocals
