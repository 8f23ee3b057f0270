/-
  JsonnetLocals.Source.Position — places in a source text.

  Lines and columns count from one; lines end at a newline and columns count code points. A range
  runs from its first character to just past its last one. Line zero says that no place is known,
  and a tree made by hand may carry any other integers.
-/

import JsonnetLocals.Text.Basic

namespace JsonnetLocals

structure Position where
  line : Int
  column : Int
  deriving DecidableEq, Repr, Inhabited

namespace Position

def origin : Position := ⟨1, 1⟩

def step (p : Position) (c : Char) : Position :=
  if c = '\n' then ⟨p.line + 1, 1⟩ else ⟨p.line, p.column + 1⟩

def advance (p : Position) (cs : List Char) : Position := cs.foldl step p

end Position

structure Range where
  file : Text
  start : Position
  stop : Position
  deriving DecidableEq, Repr, Inhabited

namespace Range

/-- The range of a construct without a place. -/
def unset : Range := ⟨"", ⟨0, 0⟩, ⟨0, 0⟩⟩

def isSet (r : Range) : Bool := r.start.line != 0

def upTo (a b : Range) : Range := { a with stop := b.stop }

end Range

/-- What messages call a text: its file, or a stand-in when it has none. -/
def sourceLabel (file : Text) : Text := if file.isEmpty then "<source>" else file

end JsonnetLocals
