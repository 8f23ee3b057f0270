/-
  JsonnetLocals.Proofs.Syntax.CommentLine — a comment line above a text.

  A line comment takes all up to the newline (`Terminal.first_lineComment`). The newline is layout, which
  may be skipped a character at a time (`parseFrom_layout`), though a token of layout takes as much as it
  can, and so the blanks that the text begins with too. What follows is read one line further down
  (`Relocation.behind_line`), so the text has its tree there (`parse_below_comment`).
-/

import JsonnetLocals.Proofs.Syntax.Relocation
import JsonnetLocals.Proofs.Text.Utf8

namespace JsonnetLocals

open Lexeme

variable {line cs : List Char} {c : Char}

namespace Terminal

variable {ctx : Context}

/-- A comment line is one token, up to its end. -/
theorem first_lineComment (hline : '\n' ∉ line) :
    first ctx.admits (('/' :: '/' :: line) ++ '\n' :: cs) = some (lineComment, ('/' :: '/' :: line).length) := by
  have hwidth : lineComment.width (('/' :: '/' :: line) ++ '\n' :: cs) = ('/' :: '/' :: line).length := by
    have htake : (line ++ '\n' :: cs).takeWhile (· ≠ '\n') = line := by
      rw [List.takeWhile_append_of_pos, List.takeWhile_cons_of_neg (by decide), List.append_nil]
      intro c hc
      rw [decide_eq_true_eq]
      rintro rfl
      exact hline hc
    show 2 + ((line ++ '\n' :: cs).takeWhile (· ≠ '\n')).length = line.length + 1 + 1
    rw [htake]
    omega
  have hfirst := first_of_isIgnored ctx (t := lineComment) rfl (by rw [hwidth]; simp)
  rwa [hwidth] at hfirst

/-- Layout is one token as far as it goes. -/
theorem first_layout (hc : isLayout c = true) :
    first ctx.admits (c :: cs) = some (whitespace, (c :: cs.takeWhile isLayout).length) := by
  have hwidth : whitespace.width (c :: cs) = (c :: cs.takeWhile isLayout).length := by
    show ((c :: cs).takeWhile isLayout).length = _
    rw [List.takeWhile_cons_of_pos hc]
  have hfirst := first_of_isIgnored ctx (t := whitespace) rfl (by rw [hwidth]; simp)
  rwa [hwidth] at hfirst

end Terminal

/-- A character of layout may be skipped by itself. -/
theorem parseFrom_layout {file : Text} {s : State} {before : List Char} {last : Position} (hc : isLayout c = true) :
    parseFrom file s (placeAfter before) last (c :: cs) = parseFrom file s (placeAfter (before ++ [c])) last cs := by
  have hskip {before cs : List Char} {c : Char} (hc : isLayout c = true) :
      parseFrom file s (placeAfter before) last (c :: cs) =
        parseFrom file s (placeAfter (before ++ c :: cs.takeWhile isLayout)) last (cs.dropWhile isLayout) := by
    conv_lhs => rw [← List.takeWhile_append_dropWhile (p := isLayout) (l := cs), ← List.cons_append]
    have hfirst : Terminal.first s.focus.context.admits ((c :: cs.takeWhile isLayout) ++ cs.dropWhile isLayout) =
        some (.whitespace, (c :: cs.takeWhile isLayout).length) := by
      rw [List.cons_append, List.takeWhile_append_dropWhile]
      exact Terminal.first_layout hc
    exact parseFrom_skip hfirst rfl
  rw [hskip hc]
  cases cs with
  | nil => rfl
  | cons d cs =>
    by_cases hd : isLayout d = true
    · rw [hskip hd, List.takeWhile_cons_of_pos hd, List.dropWhile_cons_of_pos hd, List.append_assoc]
      rfl
    · rw [List.takeWhile_cons_of_neg hd, List.dropWhile_cons_of_neg hd]

def Relocation.lineDown : Relocation := ⟨id, fun p => ⟨p.line + 1, p.column⟩⟩

/-- Behind a line, a text is one line further down. -/
theorem Relocation.behind_line (hline : '\n' ∉ line) : Relocation.lineDown.Behind (line ++ ['\n']) := by
  have hstart (p : Position) : p.advance line = ⟨p.line, p.column + line.length⟩ := by
    induction line generalizing p with
    | nil => simp [Position.advance]
    | cons c line ih =>
      rw [List.mem_cons, not_or] at hline
      rw [Position.advance, List.foldl_cons, Position.step, if_neg (Ne.symm hline.1)]
      refine (ih hline.2 _).trans ?_
      simp only [List.length_cons, Position.mk.injEq, true_and]
      omega
  have hshift (p : Position) (before : List Char) :
      lineDown.place (p.advance before) = (lineDown.place p).advance before := by
    induction before generalizing p with
    | nil => rfl
    | cons c before ih =>
      have hstep : lineDown.place (p.step c) = (lineDown.place p).step c := by
        unfold Position.step
        split <;> rfl
      exact (ih (p.step c)).trans (congrArg (Position.advance · before) hstep)
  intro before
  have hfront : placeAfter (line ++ ['\n']) = lineDown.place .origin := by
    rw [placeAfter_append, placeAfter, hstart]
    rfl
  rw [placeAfter_append _ before, hfront, placeAfter, hshift]

/-- A text below a comment line has its tree, one line further down. -/
theorem parse_below_comment {file : Text} {code : Bytes} {e : Node} (hline : '\n' ∉ line) (h : parse file code = .ok e) :
    parse file (Utf8.encodeChars ('/' :: '/' :: line ++ ['\n']) ++ code) = .ok (e.relocate .lineDown) := by
  unfold parse at h
  cases hdecode : Utf8.decode code with
  | error part =>
    rw [hdecode] at h
    cases h
  | ok cs =>
    rw [hdecode] at h
    have hcomment : '\n' ∉ '/' :: '/' :: line := by simpa using hline
    have hrest := parseFrom_relocate (Relocation.behind_line hcomment) h .origin
    obtain rfl := Utf8.eq_encodeChars_of_decode hdecode
    rw [parse, ← Utf8.encodeChars_append, Utf8.decode_encodeChars]
    dsimp only
    rw [List.append_assoc]
    show parseFrom file .start (placeAfter []) .origin (('/' :: '/' :: line) ++ '\n' :: cs) = _
    rw [parseFrom_skip (Terminal.first_lineComment hline) rfl, parseFrom_layout rfl]
    exact hrest

end JsonnetLocals
