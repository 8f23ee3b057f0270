/-
  JsonnetLocals.Text.Utf16 — text as 16-bit units.

  A character beyond the basic plane is a pair of surrogates, a high one and a low one; a
  surrogate without its partner stands for nothing.
-/

namespace JsonnetLocals.Utf16

/-- The units of a code point, which may itself be a surrogate. -/
def unitsOf (n : Nat) : List Nat :=
  if n < 0x10000 then [n] else [0xd800 + (n - 0x10000) / 0x400, 0xdc00 + (n - 0x10000) % 0x400]

def isHigh (u : Nat) : Bool := 0xd800 ≤ u && u < 0xdc00

def isLow (u : Nat) : Bool := 0xdc00 ≤ u && u < 0xe000

inductive Flaw where
  /-- A high one that the text ends with. -/
  | truncated
  /-- A low one with no high one before it. -/
  | lowFirst
  /-- A high one with something else after it. -/
  | highAlone
  deriving DecidableEq, Repr

/-- A surrogate without its partner, `index` units from the start. -/
structure Lone where
  index : Nat
  flaw : Flaw
  deriving DecidableEq, Repr

def decodeFrom (index : Nat) (read : List Char) : List Nat → Except Lone (List Char)
  | [] => .ok read.reverse
  | u :: rest =>
    if isHigh u then
      match rest with
      | [] => .error ⟨index, .truncated⟩
      | v :: rest =>
        if isLow v then
          decodeFrom (index + 2) (Char.ofNat (0x10000 + (u - 0xd800) * 0x400 + (v - 0xdc00)) :: read) rest
        else .error ⟨index, .highAlone⟩
    else if isLow u then .error ⟨index, .lowFirst⟩
    else decodeFrom (index + 1) (Char.ofNat u :: read) rest

/-- The text of a sequence of units, or its first lone surrogate. -/
def decode (units : List Nat) : Except Lone (List Char) := decodeFrom 0 [] units

def Flaw.message : Flaw → String
  | .truncated => "unexpected end of data"
  | .lowFirst => "illegal encoding"
  | .highAlone => "illegal UTF-16 surrogate"

/-- Positions count bytes, behind a mark of two. -/
def Lone.message (l : Lone) : String :=
  let start := 2 + 2 * l.index
  "'utf-16-le' codec can't decode bytes in position " ++ toString start ++ "-" ++ toString (start + 1) ++ ": " ++
    l.flaw.message

end JsonnetLocals.Utf16
