/-
  JsonnetLocals.Text.Quoted — a text in quotes, as messages show it.

  Single quotes are used, unless the text holds a single quote and no double one. The quote in
  use, the backslash and what does not print are escaped, by a short form or by the code point in
  two, four or eight hexadecimal digits.
-/

import JsonnetLocals.Text.Basic
import JsonnetLocals.Text.Class
import JsonnetLocals.Text.Utf8

namespace JsonnetLocals.Text

def quoteFor (t : Text) : Char := if t.contains '\'' && !t.contains '"' then '"' else '\''

/-- A code point that does not print, in as few of the three escape forms as hold it. -/
def escapeCode (n : Nat) : String :=
  if n < 0x100 then "\\x" ++ Utf8.hexDigits 2 n
  else if n < 0x10000 then "\\u" ++ Utf8.hexDigits 4 n
  else "\\U" ++ Utf8.hexDigits 8 n

def quoteChar (quote c : Char) : String :=
  if c == quote || c == '\\' then String.ofList ['\\', c]
  else if c == '\n' then "\\n"
  else if c == '\r' then "\\r"
  else if c == '\t' then "\\t"
  else if isPrintable c then String.singleton c
  else escapeCode c.toNat

/-- One code point of a text between two `quote`s. A lone surrogate does not print. -/
def quoteCode (quote : Char) (n : Nat) : String :=
  match char? n with
  | some c => quoteChar quote c
  | none => escapeCode n

def quoted (t : Text) : String :=
  let quote := t.quoteFor
  String.singleton quote ++ String.join (t.codes.map (quoteCode quote)) ++ String.singleton quote

def quotedList (items : List Text) : String :=
  "[" ++ String.intercalate ", " (items.map quoted) ++ "]"

end JsonnetLocals.Text
