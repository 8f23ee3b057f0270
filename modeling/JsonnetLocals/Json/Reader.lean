/-
  JsonnetLocals.Json.Reader — from a text to a JSON value.

  Beside the standard forms, `NaN`, `Infinity` and `-Infinity` are read; of equal keys the last
  one counts, in the place of the first. A fault says what was expected and at which character.
-/

import JsonnetLocals.Json.Value
import JsonnetLocals.Syntax.Literal
import JsonnetLocals.Table

namespace JsonnetLocals.Json

export Text (isDigit isLayout)

inductive FaultKind where
  | expectingValue
  | expectingName
  | expectingColon
  | expectingComma
  | extraData
  | unterminated
  | controlCharacter
  | badEscape
  | badUnicodeEscape
  | byteOrderMark
  /-- An integer of more digits than are read. -/
  | longInteger (digits : Nat)
  deriving DecidableEq, Repr

structure Fault where
  kind : FaultKind
  index : Nat
  deriving DecidableEq, Repr

def maxIntegerDigits : Nat := 4300

/-- A value with the text after it and the index of that text. -/
structure Found (α : Type) where
  value : α
  index : Nat
  rest : List Char

def skip (i : Nat) (cs : List Char) : Nat × List Char := (i + (cs.takeWhile isLayout).length, cs.dropWhile isLayout)

/-! ## Texts -/

def escapeCode? (c : Char) : Option Nat :=
  if c = '"' ∨ c = '\\' ∨ c = '/' then some c.toNat
  else if c = 'b' then some 8
  else if c = 'f' then some 12
  else if c = 'n' then some 10
  else if c = 'r' then some 13
  else if c = 't' then some 9
  else none

/-- The low unit of a pair whose high unit has just been read: `none` when no escape follows. -/
def pairedUnit (cs : List Char) : Option (Option Nat) :=
  match cs with
  | '\\' :: 'u' :: rest => if 5 ≤ rest.length then some (Literal.hex4 rest) else none
  | _ => none

/-- Reads a text whose opening quote has index `start`, after the code points in `read`, last
    first. Two escapes that make a surrogate pair are one code point. -/
def readTextFrom (start : Nat) (read : List Nat) (i : Nat) : List Char → Except Fault (Found Text)
  | [] => .error ⟨.unterminated, start⟩
  | '"' :: rest => .ok ⟨⟨read.reverse⟩, i + 1, rest⟩
  | '\\' :: 'u' :: rest =>
    if rest.length < 5 then .error ⟨.badUnicodeEscape, i + 1⟩
    else
      match Literal.hex4 rest with
      | none => .error ⟨.badUnicodeEscape, i + 1⟩
      | some n =>
        match (if Utf16.isHigh n then pairedUnit (rest.drop 4) else none) with
        | some none => .error ⟨.badUnicodeEscape, i + 7⟩
        | some (some m) =>
          if Utf16.isLow m then
            readTextFrom start ((0x10000 + (n - 0xd800) * 0x400 + (m - 0xdc00)) :: read) (i + 12) (rest.drop 10)
          else readTextFrom start (n :: read) (i + 6) (rest.drop 4)
        | none => readTextFrom start (n :: read) (i + 6) (rest.drop 4)
  | ['\\'] => .error ⟨.unterminated, start⟩
  | '\\' :: c :: rest =>
    match escapeCode? c with
    | none => .error ⟨.badEscape, i⟩
    | some d => readTextFrom start (d :: read) (i + 2) rest
  | c :: rest =>
    if c.toNat < 32 then .error ⟨.controlCharacter, i⟩ else readTextFrom start (c.toNat :: read) (i + 1) rest
termination_by cs => cs.length
decreasing_by all_goals (simp only [List.length_drop, List.length_cons]; omega)

/-! ## Numbers -/

/-- The width of an integer without sign: a lone zero, or digits that do not start with one. -/
def wholeWidth : List Char → Nat
  | c :: rest => if c = '0' then 1 else if isDigit c then 1 + (rest.takeWhile isDigit).length else 0
  | [] => 0

def fractionWidth : List Char → Nat
  | '.' :: rest =>
    let n := (rest.takeWhile isDigit).length
    if n = 0 then 0 else 1 + n
  | _ => 0

def exponentWidth : List Char → Nat
  | c :: rest =>
    let sign := match rest with
      | '+' :: _ | '-' :: _ => 1
      | _ => 0
    let n := ((rest.drop sign).takeWhile isDigit).length
    if (c = 'e' ∨ c = 'E') ∧ n ≠ 0 then 1 + sign + n else 0
  | [] => 0

def readNumber (i : Nat) (cs : List Char) : Except Fault (Found Json) :=
  let sign := if cs.head? = some '-' then 1 else 0
  let body := cs.drop sign
  let whole := wholeWidth body
  if whole = 0 then .error ⟨.expectingValue, i⟩
  else
    let upToPoint := whole + fractionWidth (body.drop whole)
    let width := upToPoint + exponentWidth (body.drop upToPoint)
    let text := body.take width
    let rest := body.drop width
    if width = whole then
      if maxIntegerDigits < whole then .error ⟨.longInteger whole, i⟩
      else
        let n : Int := Literal.digitsValue text
        .ok ⟨.int (if sign = 1 then -n else n), i + sign + width, rest⟩
    else
      let x := Literal.numberValue text
      .ok ⟨.float (if sign = 1 then x.neg else x), i + sign + width, rest⟩

/-! ## Values -/

def words : List (List Char × Json) :=
  [("null".toList, .null), ("true".toList, .bool true), ("false".toList, .bool false), ("NaN".toList, .float .nan),
    ("Infinity".toList, .float .infinity), ("-Infinity".toList, .float Double.infinity.neg)]

def readScalar (i : Nat) (cs : List Char) : Except Fault (Found Json) :=
  match words.find? fun w => w.1.isPrefixOf cs with
  | some (w, v) => .ok ⟨v, i + w.length, cs.drop w.length⟩
  | none => readNumber i cs

mutual

def readValue (fuel i : Nat) (cs : List Char) : Except Fault (Found Json) :=
  match fuel with
  | 0 => .error ⟨.expectingValue, i⟩
  | fuel + 1 =>
    match cs with
    | [] => .error ⟨.expectingValue, i⟩
    | '"' :: rest => (readTextFrom i [] (i + 1) rest).map fun f => ⟨.str f.value, f.index, f.rest⟩
    | '[' :: rest =>
      let (i, cs) := skip (i + 1) rest
      match cs with
      | ']' :: rest => .ok ⟨.arr [], i + 1, rest⟩
      | _ => readItems fuel [] i cs
    | '\x7b' :: rest =>
      let (i, cs) := skip (i + 1) rest
      match cs with
      | '\x7d' :: rest => .ok ⟨.obj [], i + 1, rest⟩
      | _ => readFields fuel [] i cs
    | _ => readScalar i cs

/-- Reads the items of an array after the ones in `read`, last first. -/
def readItems (fuel : Nat) (read : List Json) (i : Nat) (cs : List Char) : Except Fault (Found Json) :=
  match fuel with
  | 0 => .error ⟨.expectingValue, i⟩
  | fuel + 1 =>
    match readValue fuel i cs with
    | .error f => .error f
    | .ok f =>
      let (i, cs) := skip f.index f.rest
      match cs with
      | ']' :: rest => .ok ⟨.arr (f.value :: read).reverse, i + 1, rest⟩
      | ',' :: rest =>
        let (i, cs) := skip (i + 1) rest
        readItems fuel (f.value :: read) i cs
      | _ => .error ⟨.expectingComma, i⟩

def readFields (fuel : Nat) (read : List (Text × Json)) (i : Nat) (cs : List Char) : Except Fault (Found Json) :=
  match fuel with
  | 0 => .error ⟨.expectingValue, i⟩
  | fuel + 1 =>
    match cs with
    | '"' :: rest =>
      match readTextFrom i [] (i + 1) rest with
      | .error f => .error f
      | .ok key =>
        let (i, cs) := skip key.index key.rest
        match cs with
        | ':' :: rest =>
          let (i, cs) := skip (i + 1) rest
          match readValue fuel i cs with
          | .error f => .error f
          | .ok f =>
            let read := Table.put key.value f.value read
            let (i, cs) := skip f.index f.rest
            match cs with
            | '\x7d' :: rest => .ok ⟨.obj read, i + 1, rest⟩
            | ',' :: rest =>
              let (i, cs) := skip (i + 1) rest
              readFields fuel read i cs
            | _ => .error ⟨.expectingComma, i⟩
        | _ => .error ⟨.expectingColon, i⟩
    | _ => .error ⟨.expectingName, i⟩

end

def read (text : List Char) : Except Fault Json :=
  if text.head? = some (Char.ofNat 0xfeff) then .error ⟨.byteOrderMark, 0⟩
  else
    let (i, cs) := skip 0 text
    match readValue (2 * text.length + 2) i cs with
    | .error f => .error f
    | .ok f =>
      match skip f.index f.rest with
      | (_, []) => .ok f.value
      | (i, _) => .error ⟨.extraData, i⟩

/-! ## Messages -/

def FaultKind.message : FaultKind → String
  | expectingValue => "Expecting value"
  | expectingName => "Expecting property name enclosed in double quotes"
  | expectingColon => "Expecting ':' delimiter"
  | expectingComma => "Expecting ',' delimiter"
  | extraData => "Extra data"
  | unterminated => "Unterminated string starting at"
  | controlCharacter => "Invalid control character at"
  | badEscape => "Invalid \\escape"
  | badUnicodeEscape => "Invalid \\uXXXX escape"
  | byteOrderMark => "Unexpected UTF-8 BOM (decode using utf-8-sig)"
  | longInteger digits =>
    "Exceeds the limit (" ++ toString maxIntegerDigits ++ " digits) for integer string conversion: value has " ++
      toString digits ++ " digits; use sys.set_int_max_str_digits() to increase the limit"

def Fault.isSyntax (f : Fault) : Bool :=
  match f.kind with
  | .longInteger _ => false
  | _ => true

def Fault.message (text : List Char) (f : Fault) : String :=
  if f.isSyntax then
    let before := text.take f.index
    let line := before.count '\n' + 1
    let column := (before.reverse.takeWhile (· ≠ '\n')).length + 1
    f.kind.message ++ ": line " ++ toString line ++ " column " ++ toString column ++ " (char " ++ toString f.index ++ ")"
  else f.kind.message

end JsonnetLocals.Json
