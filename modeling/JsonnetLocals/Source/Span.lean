/-
  JsonnetLocals.Source.Span — byte ranges of identifiers.

  A span is resolved from a range of lines and columns and then compared with the buffer: only a
  span that literally holds the expected identifier is accepted. Offsets below zero count from the
  end of the buffer, and offsets beyond an end stop there.
-/

import JsonnetLocals.Source.Position
import JsonnetLocals.Source.LineIndex
import JsonnetLocals.Text.Encoding

namespace JsonnetLocals

/-- The index that an offset selects in a list of `size` items. -/
def clampOffset (size : Nat) (offset : Int) : Nat :=
  if offset < 0 then (offset + size).toNat else min offset.toNat size

/-- The items from one offset up to another. -/
def slice {α : Type} (items : List α) (start stop : Int) : List α :=
  let a := clampOffset items.length start
  let b := clampOffset items.length stop
  (items.drop a).take (b - a)

/-- The half-open byte range `[start, stop)`. -/
structure Span where
  start : Int
  stop : Int
  deriving DecidableEq, Repr

inductive Mismatch where
  /-- Its place is not known. -/
  | unlocated (expected : Text)
  /-- Its span holds another text. -/
  | differs (expected actual : Text) (span : Span)
  deriving DecidableEq, Repr

namespace Mismatch

def message : Mismatch → Text
  | unlocated expected => "no location available for '" ++ expected ++ "'"
  | differs expected actual span =>
    "span [" ++ toString span.start ++ ":" ++ toString span.stop ++ "] holds " ++ actual.quoted ++
      ", expected " ++ expected.quoted

end Mismatch

inductive SpanError where
  | mismatch (m : Mismatch)
  /-- The expected identifier has no bytes to compare with. -/
  | unencodable (u : Unencodable)
  deriving DecidableEq, Repr

namespace Span

/-- The span between two places, each counted from one. -/
def resolve (starts : List Nat) (start stop : Position) : Span :=
  ⟨LineIndex.offset starts (start.line - 1) (start.column - 1), LineIndex.offset starts (stop.line - 1) (stop.column - 1)⟩

/-- Accepts the span if it literally holds `expected`. -/
def verify (source : Bytes) (span : Span) (expected : Text) : Except SpanError Span :=
  match expected.encode with
  | .error u => .error (.unencodable u)
  | .ok bytes =>
    let found := slice source span.start span.stop
    if found = bytes then .ok span
    else .error (.mismatch (.differs expected (.ofChars (Utf8.decodeLossy found)) span))

end Span

end JsonnetLocals
