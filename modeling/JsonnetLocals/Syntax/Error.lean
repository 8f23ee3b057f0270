/-
  JsonnetLocals.Syntax.Error — why a text is not a program.

  A fault of the tokens is met while reading; a fault of a construct (an escape, a text block, a
  call, a comprehension) counts only when the whole text can be read. Every cause but a lone
  surrogate is a syntax error with a message that starts with the place.
-/

import JsonnetLocals.Source.Position
import JsonnetLocals.Text.Quoted
import JsonnetLocals.Text.Utf16

namespace JsonnetLocals

inductive ParseError where
  | notUtf8 (part : Utf8.Malformed)
  /-- A token that cannot stand where it does; at the end of the text, an empty one. -/
  | unexpectedToken (label : String) (text : List Char) (place : Position)
  /-- A character that starts no token. -/
  | noTerminal (c : Char) (place : Position)
  | unknownEscape (c : Char) (place : Position)
  | blockNotIndented (place : Position)
  | blockNotTerminated (place : Position)
  | positionalAfterNamed (place : Position)
  | comprehensionElements (place : Position)
  | comprehensionAsserts (place : Position)
  | comprehensionFields (place : Position)
  | comprehensionName (place : Position)
  | loneSurrogate (surrogate : Utf16.Lone)
  deriving DecidableEq, Repr

namespace ParseError

def isSyntax : ParseError → Bool
  | loneSurrogate _ => false
  | _ => true

/-- Where the fault stands; line zero when it has no place. -/
def place : ParseError → Position
  | unexpectedToken _ _ p | noTerminal _ p | unknownEscape _ p | blockNotIndented p | blockNotTerminated p
  | positionalAfterNamed p | comprehensionElements p | comprehensionAsserts p | comprehensionFields p
  | comprehensionName p => p
  | notUtf8 _ | loneSurrogate _ => ⟨0, 0⟩

/-- The cause alone. A character that ends a line also ends the message that names it. -/
def detail : ParseError → String
  | notUtf8 part => "source is not valid UTF-8: " ++ part.message
  | unexpectedToken label text p =>
    "Unexpected token Token('" ++ label ++ "', " ++ (Text.ofChars text).quoted ++ ") at line " ++ toString p.line ++
      ", column " ++ toString p.column ++ "."
  | noTerminal c p =>
    if Text.isLineEnd c then "No terminal matches '"
    else
      "No terminal matches '" ++ String.singleton c ++ "' in the current parser context, at line " ++
        toString p.line ++ " col " ++ toString p.column
  | unknownEscape c _ => "unknown escape sequence '\\" ++ String.singleton c ++ "'"
  | blockNotIndented _ => "text block's first line must start with whitespace"
  | blockNotTerminated _ => "text block not terminated with |||"
  | positionalAfterNamed _ => "positional argument after a named argument"
  | comprehensionElements _ => "array comprehension must have exactly one element"
  | comprehensionAsserts _ => "object comprehension cannot have asserts"
  | comprehensionFields _ => "object comprehension must have exactly one field"
  | comprehensionName _ => "object comprehension field name must be computed with [...]"
  | loneSurrogate s => "Error trying to process rule \"string\":\n\n" ++ s.message

/-- The message for a text of `file`: a fault of syntax is named with its place. -/
def message (file : Text) (e : ParseError) : Text :=
  if e.isSyntax then
    let p := e.place
    let spot := if p.line = 0 then "" else ":" ++ toString p.line ++ ":" ++ toString p.column
    sourceLabel file ++ spot ++ ": " ++ e.detail
  else e.detail

end ParseError

end JsonnetLocals
