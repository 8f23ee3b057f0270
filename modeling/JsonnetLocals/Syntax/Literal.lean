/-
  JsonnetLocals.Syntax.Literal — the values of literal tokens.

  - A quoted string reads its escapes from left to right; a pair of `\u` surrogates is one
    character.
  - A verbatim string reads a doubled quote as one.
  - A text block drops the indent of its first line from every line; blank lines become empty.
  - A number is the nearest double.
-/

import JsonnetLocals.Number.Double
import JsonnetLocals.Syntax.Error
import JsonnetLocals.Syntax.Tree
import JsonnetLocals.Text.Split

namespace JsonnetLocals.Literal

/-! ## Quoted strings -/

def hexValue (c : Char) : Option Nat :=
  if '0' ≤ c && c ≤ '9' then some (c.toNat - 48)
  else if 'a' ≤ c && c ≤ 'f' then some (c.toNat - 87)
  else if 'A' ≤ c && c ≤ 'F' then some (c.toNat - 55)
  else none

def hex4 : List Char → Option Nat
  | a :: b :: c :: d :: _ =>
    match hexValue a, hexValue b, hexValue c, hexValue d with
    | some a, some b, some c, some d => some (a * 4096 + b * 256 + c * 16 + d)
    | _, _, _, _ => none
  | _ => none

/-- The character that a backslash and `c` stand for. -/
def shortEscape (c : Char) : Option Nat :=
  if c = '"' ∨ c = '\'' ∨ c = '\\' ∨ c = '/' then some c.toNat
  else if c = 'b' then some 8
  else if c = 'f' then some 12
  else if c = 'n' then some 10
  else if c = 'r' then some 13
  else if c = 't' then some 9
  else none

/-- The 16-bit units of a string body, or the character of its first unknown escape. -/
def unescape (read : List Nat) : List Char → Except Char (List Nat)
  | [] => .ok read.reverse
  | '\\' :: c :: rest =>
    match (if c = 'u' then hex4 rest else none) with
    | some n => unescape (n :: read) (rest.drop 4)
    | none =>
      match shortEscape c with
      | some n => unescape (n :: read) rest
      | none => .error c
  | c :: rest => unescape ((Utf16.unitsOf c.toNat).reverse ++ read) rest
termination_by cs => cs.length
decreasing_by all_goals (simp only [List.length_drop, List.length_cons]; omega)

def quotedValue (body : List Char) (place : Position) : Except ParseError (List Char) :=
  match unescape [] body with
  | .error c => .error (.unknownEscape c place)
  | .ok units =>
    match Utf16.decode units with
    | .error s => .error (.loneSurrogate s)
    | .ok cs => .ok cs

/-! ## Verbatim strings -/

def verbatimFrom (quote : Char) (read : List Char) : List Char → List Char
  | [] => read.reverse
  | [c] => (c :: read).reverse
  | c :: d :: rest =>
    if c = quote ∧ d = quote then verbatimFrom quote (quote :: read) rest else verbatimFrom quote (c :: read) (d :: rest)

/-- Reads each doubled quote as one. -/
def verbatimValue (quote : Char) (body : List Char) : List Char := verbatimFrom quote [] body

/-! ## Text blocks -/

/-- The lines of a text block: without the one that opens it and without the one that closes it. -/
def blockLines (text : List Char) : List (List Char) := (Text.split '\n' text).tail.dropLast

/-- Takes the indent off each line that is not blank; the first that lacks it is `line` lines below
    the start. -/
def dedent (indent : List Char) (place : Position) (line : Nat) : List (List Char) → Except ParseError (List (List Char))
  | [] => .ok []
  | l :: rest =>
    if l.all Text.isBlank then (dedent indent place (line + 1) rest).map ([] :: ·)
    else if indent.isPrefixOf l then (dedent indent place (line + 1) rest).map (l.drop indent.length :: ·)
    else .error (.blockNotTerminated ⟨place.line + line, 1⟩)

/-- The lines of a text, each with a newline after it; without the last newline if `chomp`. -/
def joinLines (chomp : Bool) : List (List Char) → List Char
  | [] => []
  | [l] => if chomp then l else l ++ ['\n']
  | l :: rest => l ++ '\n' :: joinLines chomp rest

def blockValue (text : List Char) (place : Position) : Except ParseError (List Char) :=
  let chomp := ['|', '|', '|', '-'].isPrefixOf text
  let lines := blockLines text
  let indent := (lines.headD []).takeWhile Text.isIndent
  if indent.isEmpty then .error (.blockNotIndented place)
  else (dedent indent place 1 lines).map (joinLines chomp)

/-! ## All strings -/

def stringValue (kind : StringKind) (text : List Char) (place : Position) : Except ParseError (List Char) :=
  match kind with
  | .double | .single => quotedValue (text.drop 1).dropLast place
  | .verbatimDouble => .ok (verbatimValue '"' (text.drop 2).dropLast)
  | .verbatimSingle => .ok (verbatimValue '\'' (text.drop 2).dropLast)
  | .block => blockValue text place

/-! ## Numbers -/

def digitsValue (cs : List Char) : Nat := cs.foldl (fun n c => n * 10 + (c.toNat - 48)) 0

def numberValue (text : List Char) : Double :=
  let whole := text.takeWhile Text.isDigit
  let rest := text.dropWhile Text.isDigit
  let fraction := if rest.head? = some '.' then (rest.drop 1).takeWhile Text.isDigit else []
  let rest := if rest.head? = some '.' then (rest.drop 1).dropWhile Text.isDigit else rest
  let digits := digitsValue ((rest.drop 1).filter Text.isDigit)
  let exponent : Int := if rest.drop 1 |>.head?.any (· == '-') then -(digits : Int) else digits
  Double.ofDecimal (digitsValue (whole ++ fraction)) (exponent - fraction.length)

end JsonnetLocals.Literal
