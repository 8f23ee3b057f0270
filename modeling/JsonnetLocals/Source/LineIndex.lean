/-
  JsonnetLocals.Source.LineIndex — from lines and columns to byte offsets.

  The index of a buffer lists the offset at which each line starts: zero, then one past each
  newline. A place resolves to the start of its line plus its column, so a column counted in code
  points falls short of the true offset by the continuation bytes before it on the line.
-/

import JsonnetLocals.Text.Utf8

namespace JsonnetLocals

namespace LineIndex

def newline : UInt8 := 0x0a

/-- The offsets just past each newline of a buffer whose first byte has offset `offset`. -/
def startsAfter (offset : Nat) : Bytes → List Nat
  | [] => []
  | b :: rest => if b = newline then (offset + 1) :: startsAfter (offset + 1) rest else startsAfter (offset + 1) rest

/-- The offset at which each line of the buffer starts. -/
def build (source : Bytes) : List Nat := 0 :: startsAfter 0 source

/-- The offset of a line and column, both counted from zero. A line outside the index resolves to
    the beginning of the buffer. -/
def offset (starts : List Nat) (line column : Int) : Int :=
  if line < 0 then 0
  else
    match starts[line.toNat]? with
    | none => 0
    | some start => start + column

end LineIndex

end JsonnetLocals
