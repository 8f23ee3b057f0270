/-
  JsonnetLocals.Text.Utf8 — text as bytes.

  `scan` reads the first scalar value of a byte sequence, or the longest run of bytes that could
  still have begun one (a malformed part). Two readers are built on it:
  - `decode` answers the text, or the first malformed part and where it stands,
  - `decodeLossy` writes U+FFFD for each malformed part and goes on.
-/

namespace JsonnetLocals

abbrev Bytes := List UInt8

namespace Utf8

def encodeChars (cs : List Char) : Bytes := cs.flatMap String.utf8EncodeChar

/-- The UTF-8 bytes of a text. -/
def encode (s : String) : Bytes := encodeChars s.toList

inductive Flaw where
  | badStart
  | badContinuation
  | truncated
  deriving DecidableEq, Repr

/-- The first piece of a byte sequence: a scalar value or a malformed part, with its width. -/
inductive Piece where
  | scalar (c : Char) (width : Nat)
  | malformed (flaw : Flaw) (width : Nat)
  deriving DecidableEq, Repr

def Piece.width : Piece → Nat
  | .scalar _ w => w
  | .malformed _ w => w

/-- Reads the bytes after the first: each must lie in its range and adds six bits to `value`. -/
def scanTail (value width : Nat) : List (UInt8 × UInt8) → Bytes → Piece
  | [], _ => .scalar (Char.ofNat value) width
  | _ :: _, [] => .malformed .truncated width
  | (lo, hi) :: ranges, b :: rest =>
    if lo ≤ b && b ≤ hi then scanTail (value * 64 + (b.toNat - 0x80)) (width + 1) ranges rest
    else .malformed .badContinuation width

/-- The ranges of the bytes that must follow a first byte of two or more, with the bits it holds. -/
def leadOf (b : UInt8) : Option (Nat × List (UInt8 × UInt8)) :=
  let tail : UInt8 × UInt8 := (0x80, 0xbf)
  if b < 0xc2 then none
  else if b < 0xe0 then some (b.toNat - 0xc0, [tail])
  else if b < 0xf0 then
    some (b.toNat - 0xe0, [if b = 0xe0 then (0xa0, 0xbf) else if b = 0xed then (0x80, 0x9f) else tail, tail])
  else if b < 0xf5 then
    some (b.toNat - 0xf0, [if b = 0xf0 then (0x90, 0xbf) else if b = 0xf4 then (0x80, 0x8f) else tail, tail, tail])
  else none

def scan (b : UInt8) (rest : Bytes) : Piece :=
  if b < 0x80 then .scalar (Char.ofNat b.toNat) 1
  else
    match leadOf b with
    | none => .malformed .badStart 1
    | some (value, ranges) => scanTail value 1 ranges rest

structure Malformed where
  /-- Its first byte. -/
  first : UInt8
  /-- The number of bytes before it. -/
  start : Nat
  width : Nat
  flaw : Flaw
  deriving DecidableEq, Repr

def decodeFrom (start : Nat) (read : List Char) : Bytes → Except Malformed (List Char)
  | [] => .ok read.reverse
  | b :: rest =>
    match scan b rest with
    | .scalar c w => decodeFrom (start + w) (c :: read) (rest.drop (w - 1))
    | .malformed flaw w => .error ⟨b, start, w, flaw⟩
termination_by bs => bs.length
decreasing_by simp only [List.length_drop, List.length_cons]; omega

/-- The text of a byte sequence, or its first malformed part. -/
def decode (bs : Bytes) : Except Malformed (List Char) := decodeFrom 0 [] bs

def decodeLossyFrom (read : List Char) : Bytes → List Char
  | [] => read.reverse
  | b :: rest =>
    match scan b rest with
    | .scalar c w => decodeLossyFrom (c :: read) (rest.drop (w - 1))
    | .malformed _ w => decodeLossyFrom (Char.ofNat 0xfffd :: read) (rest.drop (w - 1))
termination_by bs => bs.length
decreasing_by all_goals (simp only [List.length_drop, List.length_cons]; omega)

/-- The text of a byte sequence, with U+FFFD in place of each malformed part. -/
def decodeLossy (bs : Bytes) : List Char := decodeLossyFrom [] bs

def Flaw.message : Flaw → String
  | .badStart => "invalid start byte"
  | .badContinuation => "invalid continuation byte"
  | .truncated => "unexpected end of data"

/-- `n` in base 16, small digits, with at least `width` digits. -/
def hexDigits (width n : Nat) : String :=
  let digits := Nat.toDigits 16 n
  String.ofList (List.replicate (width - digits.length) '0' ++ digits)

/-- One byte is named by its value, a longer part by the positions of its ends. -/
def Malformed.message (m : Malformed) : String :=
  let what :=
    if m.width = 1 then "byte 0x" ++ hexDigits 2 m.first.toNat ++ " in position " ++ toString m.start
    else "bytes in position " ++ toString m.start ++ "-" ++ toString (m.start + m.width - 1)
  "'utf-8' codec can't decode " ++ what ++ ": " ++ m.flaw.message

end Utf8

end JsonnetLocals
