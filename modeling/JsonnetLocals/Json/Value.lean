/-
  JsonnetLocals.Json.Value — JSON values, their written form and their form in messages.

  An object keeps its keys in the order in which they came. Texts are code points, since a document
  may spell half of a surrogate pair. `Json.write` indents by two, writes ASCII only, and gives a
  character beyond the basic plane as a pair of escapes; `Json.shown` is how a message shows a
  value.
-/

import JsonnetLocals.Number.Double
import JsonnetLocals.Text.Quoted
import JsonnetLocals.Text.Utf16

namespace JsonnetLocals

inductive Json where
  | null
  | bool (b : Bool)
  | int (n : Int)
  | float (x : Double)
  | str (s : Text)
  | arr (items : List Json)
  | obj (fields : List (Text × Json))
  deriving Repr, Inhabited

namespace Json

def get? (key : String) : Json → Option Json
  | obj fields => fields.lookup (Text.ofString key)
  | _ => none

/-! ## The written form -/

def writeCode (n : Nat) : String :=
  if n = 34 then "\\\""
  else if n = 92 then "\\\\"
  else if n = 10 then "\\n"
  else if n = 13 then "\\r"
  else if n = 9 then "\\t"
  else if n = 8 then "\\b"
  else if n = 12 then "\\f"
  else if 32 ≤ n ∧ n < 127 then String.singleton (Char.ofNat n)
  else String.join ((Utf16.unitsOf n).map fun u => "\\u" ++ Utf8.hexDigits 4 u)

def writeText (t : Text) : String := "\"" ++ String.join (t.codes.map writeCode) ++ "\""

def writeDouble (x : Double) : String :=
  match x.text with
  | "nan" => "NaN"
  | "inf" => "Infinity"
  | "-inf" => "-Infinity"
  | t => t

/-- A new line that is `depth` steps in. -/
def lineAt (depth : Nat) : String := "\n" ++ String.ofList (List.replicate (2 * depth) ' ')

mutual

/-- The written form of a value that stands `depth` steps in. -/
def writeAt (depth : Nat) : Json → String
  | null => "null"
  | bool true => "true"
  | bool false => "false"
  | int n => toString n
  | float x => writeDouble x
  | str s => writeText s
  | arr [] => "[]"
  | arr items => "[" ++ writeItems (depth + 1) true items ++ lineAt depth ++ "]"
  | obj [] => "\x7b\x7d"
  | obj fields => "\x7b" ++ writeFields (depth + 1) true fields ++ lineAt depth ++ "\x7d"

def writeItems (depth : Nat) (first : Bool) : List Json → String
  | [] => ""
  | v :: rest => (if first then "" else ",") ++ lineAt depth ++ writeAt depth v ++ writeItems depth false rest

def writeFields (depth : Nat) (first : Bool) : List (Text × Json) → String
  | [] => ""
  | (k, v) :: rest =>
    (if first then "" else ",") ++ lineAt depth ++ writeText k ++ ": " ++ writeAt depth v ++
      writeFields depth false rest

end

def write (v : Json) : String := writeAt 0 v

/-! ## The form in messages -/

mutual

def shownInside : Json → String
  | null => "None"
  | bool true => "True"
  | bool false => "False"
  | int n => toString n
  | float x => x.text
  | str s => s.quoted
  | arr items => "[" ++ shownItems true items ++ "]"
  | obj fields => "\x7b" ++ shownFields true fields ++ "\x7d"

def shownItems (first : Bool) : List Json → String
  | [] => ""
  | v :: rest => (if first then "" else ", ") ++ shownInside v ++ shownItems false rest

def shownFields (first : Bool) : List (Text × Json) → String
  | [] => ""
  | (k, v) :: rest =>
    (if first then "" else ", ") ++ k.quoted ++ ": " ++ shownInside v ++ shownFields false rest

end

/-- A value in a message: a text stands as it is. -/
def shown : Json → Text
  | str s => s
  | v => shownInside v

end Json

end JsonnetLocals
