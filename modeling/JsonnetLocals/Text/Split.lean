/-
  JsonnetLocals.Text.Split — cutting a text at a character, and its line ends.
-/

import JsonnetLocals.Text.Basic

namespace JsonnetLocals.Text

variable {α : Type} [DecidableEq α]

def splitFrom (sep : α) (piece : List α) : List α → List (List α)
  | [] => [piece.reverse]
  | c :: rest => if c = sep then piece.reverse :: splitFrom sep [] rest else splitFrom sep (c :: piece) rest

/-- The pieces of a list between the occurrences of `sep`: one more than there are occurrences. -/
def split (sep : α) (items : List α) : List (List α) := splitFrom sep [] items

def splitOn (sep : Char) (t : Text) : List Text := (split sep.toNat t.codes).map Text.mk

/-- A text with each of its line ends, `\r\n`, `\r` or `\n`, given as `\n`. -/
def plainLines : List Char → List Char
  | [] => []
  | '\r' :: '\n' :: rest => '\n' :: plainLines rest
  | '\r' :: rest => '\n' :: plainLines rest
  | c :: rest => c :: plainLines rest

end JsonnetLocals.Text
