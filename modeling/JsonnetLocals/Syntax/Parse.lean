/-
  JsonnetLocals.Syntax.Parse — from a text to its tree.

  `parseChars` cuts one token at a time, in the context that the machine's focus sets, and feeds it
  to the machine. When no admitted terminal matches, the message names the token that stands
  there, if there is one.
-/

import JsonnetLocals.Syntax.Machine

namespace JsonnetLocals

theorem Terminal.first_pos {allowed : Terminal → Bool} {cs : List Char} {t : Terminal} {w : Nat}
    (h : Terminal.first allowed cs = some (t, w)) : 0 < w := by
  obtain ⟨u, _, hu⟩ := List.exists_of_findSome?_eq_some h
  split at hu
  · dsimp only at hu
    split at hu
    · cases hu
    · simp only [Option.some.injEq, Prod.mk.injEq] at hu; omega
  · cases hu

/-- Why no token of the context stands at the front of `c :: rest`. -/
def lexError (c : Char) (rest : List Char) (place : Position) : ParseError :=
  match Terminal.first (fun _ => true) (c :: rest) with
  | some (t, w) => .unexpectedToken t.label ((c :: rest).take w) place
  | none => .noTerminal c place

/-- What the end of the text leaves: the tree, unless a construct had a fault. -/
def State.result (s : State) (last : Position) : Except ParseError Node :=
  match s.finish with
  | none => .error (.unexpectedToken "$END" [] last)
  | some e =>
    match s.fault with
    | none => .ok e
    | some fault => .error fault

/-- Reads a text that stands at `place`, after a token that began at `last`. -/
def parseFrom (file : Text) (s : State) (place last : Position) : List Char → Except ParseError Node
  | [] => s.result last
  | c :: rest =>
    match _h : Terminal.first s.focus.context.admits (c :: rest) with
    | none => .error (lexError c rest place)
    | some (t, w) =>
      let text := (c :: rest).take w
      let stop := place.advance text
      if t.isIgnored then parseFrom file s stop last ((c :: rest).drop w)
      else
        match s.feed ⟨t, text, ⟨file, place, stop⟩⟩ with
        | none => .error (.unexpectedToken t.label text place)
        | some s => parseFrom file s stop place ((c :: rest).drop w)
termination_by cs => cs.length
decreasing_by
  all_goals
    have := Terminal.first_pos _h
    simp only [List.length_drop, List.length_cons]
    omega

def parseChars (file : Text) (text : List Char) : Except ParseError Node :=
  parseFrom file .start .origin .origin text

def parse (file : Text) (source : Bytes) : Except ParseError Node :=
  match Utf8.decode source with
  | .error part => .error (.notUtf8 part)
  | .ok text => parseChars file text

end JsonnetLocals
