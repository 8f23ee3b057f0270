/-
  JsonnetLocals.Source.Edit — edits of a frozen buffer.

  Every edit of a buffer refers to the buffer as it was. They are applied from the highest start
  down, so that a splice only moves bytes which no later splice looks at; an edit that reaches into
  the one applied before it is refused.
-/

import JsonnetLocals.Source.Span

namespace JsonnetLocals

/-- Put `text` in place of the bytes `[start, stop)`. -/
structure Edit where
  start : Int
  stop : Int
  text : Text
  ordered : start ≤ stop
  deriving DecidableEq

inductive EditError where
  | inverted (start stop : Int)
  | overlap (start : Int)
  /-- A text that has no bytes. -/
  | unencodable (u : Unencodable)
  deriving DecidableEq, Repr

namespace EditError

def message : EditError → String
  | inverted start stop => "Replacement begins after it ends: " ++ toString start ++ " > " ++ toString stop
  | overlap start => "overlapping replacement at " ++ toString start
  | unencodable u => u.message

end EditError

namespace Edit

/-- The edit of a range, unless it begins after it ends. -/
def make (start stop : Int) (text : Text) : Except EditError Edit :=
  if h : start ≤ stop then .ok ⟨start, stop, text, h⟩ else .error (.inverted start stop)

/-- The buffer with `bytes` in place of the edit's range. -/
def splice (e : Edit) (bytes buffer : Bytes) : Bytes :=
  buffer.take (clampOffset buffer.length e.start) ++ bytes ++ buffer.drop (clampOffset buffer.length e.stop)

/-- Highest start first; edits with the same start keep their order. -/
def arrange (edits : List Edit) : List Edit := edits.mergeSort fun a b => b.start ≤ a.start

/-- Applies edits in the given order, none reaching beyond `limit`, the start of the one before. -/
def spliceAll (buffer : Bytes) (limit : Int) : List Edit → Except EditError Bytes
  | [] => .ok buffer
  | e :: rest =>
    if e.stop ≤ limit then
      match e.text.encode with
      | .error u => .error (.unencodable u)
      | .ok bytes => spliceAll (e.splice bytes buffer) e.start rest
    else .error (.overlap e.start)

def applyAll (source : Bytes) (edits : List Edit) : Except EditError Bytes :=
  spliceAll source source.length (arrange edits)

end Edit

end JsonnetLocals
