/-
  JsonnetLocals.Text.Basic — texts in which surrogates may stand alone.

  A `String` holds characters only. A settings file may spell a surrogate without its partner, and
  the name of a file may hold bytes that are no character; such a text is kept, shown and given
  back as it came. So a text is the list of its code points.
  - A string is a text (`Text.ofString`), and joining commutes with that (`Text.ofString_append`).
  - `Text.string?` is the string of a text of characters only, and gives back what
    `Text.ofString` was given (`Text.string?_ofString`).
  - `Text.chars` is the text of any: a lone surrogate becomes the replacement character.
-/

namespace JsonnetLocals

structure Text where
  codes : List Nat
  deriving DecidableEq, Repr, Inhabited

namespace Text

def ofChars (cs : List Char) : Text := ⟨cs.map Char.toNat⟩

def ofString (s : String) : Text := ofChars s.toList

instance : Coe String Text := ⟨ofString⟩

/-! ## Joining -/

def append (a b : Text) : Text := ⟨a.codes ++ b.codes⟩

instance : Append Text := ⟨append⟩

@[simp]
theorem codes_append (a b : Text) : (a ++ b).codes = a.codes ++ b.codes := rfl

theorem ofChars_append (a b : List Char) : ofChars (a ++ b) = ofChars a ++ ofChars b := by
  show Text.mk _ = Text.mk _
  rw [List.map_append]
  rfl

theorem ofString_append (a b : String) : ofString (a ++ b) = ofString a ++ ofString b := by
  simp [ofString, ofChars_append]

def join (ts : List Text) : Text := ⟨ts.flatMap codes⟩

def intercalate (sep : Text) (ts : List Text) : Text := ⟨sep.codes.intercalate (ts.map codes)⟩

/-! ## Looking at a text -/

def length (t : Text) : Nat := t.codes.length

def isEmpty (t : Text) : Bool := t.codes.isEmpty

def isPrefixOf (a b : Text) : Bool := a.codes.isPrefixOf b.codes

def contains (t : Text) (c : Char) : Bool := t.codes.contains c.toNat

def codesPrecede : List Nat → List Nat → Bool
  | [], _ => true
  | _ :: _, [] => false
  | x :: xs, y :: ys => x < y || x == y && codesPrecede xs ys

/-- Whether `a` comes no later than `b`: at the first difference the smaller code point decides. -/
def precedes (a b : Text) : Bool := codesPrecede a.codes b.codes

/-! ## Characters -/

def isSurrogate (n : Nat) : Bool := 0xd800 ≤ n && n < 0xe000

/-- The character of a code point. A surrogate has none. -/
def char? (n : Nat) : Option Char := if n.isValidChar then some (Char.ofNat n) else none

theorem char?_toNat (c : Char) : char? c.toNat = some c := by
  have h : c.toNat.isValidChar := c.valid
  simp [char?, h, Char.ofNat_toNat]

/-- The string, if every code point is a character. -/
def string? (t : Text) : Option String := (t.codes.mapM char?).map String.ofList

@[simp]
theorem string?_ofString (s : String) : (ofString s).string? = some s := by
  have h (cs : List Char) : (cs.map Char.toNat).mapM char? = some cs := by
    induction cs with
    | nil => rfl
    | cons c rest ih => simp [List.mapM_cons, char?_toNat, ih]
  simp [string?, ofString, ofChars, h]

/-- A string is determined by its text. -/
theorem ofString_injective {a b : String} (h : ofString a = ofString b) : a = b := by
  have : (ofString a).string? = (ofString b).string? := by rw [h]
  simpa using this

/-- What stands for a lone surrogate where only characters can stand. -/
def replacement : Char := Char.ofNat 0xfffd

def chars (t : Text) : List Char := t.codes.map fun n => (char? n).getD replacement

/-- The text as a string, lone surrogates replaced. -/
def lossy (t : Text) : String := String.ofList t.chars

end Text

end JsonnetLocals
