/-
  JsonnetLocals.Proofs.Syntax.TextBlock — what text blocks stand for.

  - A text block ends at the first line that is an indent and three bars (`blockRest_lines`), so a
    block of lines that do not begin so is one token to its end (`textBlockWidth_blockText`) and has
    just these lines (`blockLines_blockText`).
  - The indent is that of the first line. It is taken off each line (`dedent_eq`), and the first line
    that is not blank and lacks it is the fault of the block (`dedent_error`).
  The main statement is `text_block_decodes`.
-/

import JsonnetLocals.Proofs.Syntax.Strings
import JsonnetLocals.Proofs.Text.Split

namespace JsonnetLocals

open Lexeme
open Utf8 (encodeChars)

/-- The text of a block: the line that opens it, its lines, and the line that closes it. -/
def blockText (chomp : Bool) (lines : List (List Char)) (close : List Char) : List Char :=
  ['\n'].intercalate ((bars ++ if chomp then ['-'] else []) :: lines ++ [close ++ bars])

def BlockLine (l : List Char) : Prop := '\n' ∉ l ∧ ¬ bars <+: l.dropWhile isIndent

/-- The line has nothing but what stripping removes. -/
def IsBlank (l : List Char) : Prop := l.all Text.isBlank = true

/-- The lines as they stand in a block with the indent: empty lines are left empty. -/
def indented (indent : List Char) (lines : List (List Char)) : List (List Char) :=
  lines.map fun l => if l = [] then [] else indent ++ l

/-- The lines with a newline after each of them, or between them if `chomp`. -/
def unlines (chomp : Bool) (lines : List (List Char)) : List Char :=
  ['\n'].intercalate lines ++ if chomp then [] else ['\n']

instance (l : List Char) : Decidable (BlockLine l) := inferInstanceAs (Decidable (_ ∧ _))

instance (l : List Char) : Decidable (IsBlank l) := inferInstanceAs (Decidable (_ = _))

/-! ## Where a block ends -/

section Ends

variable {l rest close : List Char} {lines : List (List Char)}

theorem blockCloseWidth_newline (rest : List Char) :
    blockCloseWidth ('\n' :: rest) =
      if bars <+: rest.dropWhile isIndent then 1 + (rest.takeWhile isIndent).length + 3 else 0 := by
  have hdrop : (rest.takeWhile isIndent ++ rest.dropWhile isIndent).drop (rest.takeWhile isIndent).length =
      rest.dropWhile isIndent := List.drop_left
  rw [List.takeWhile_append_dropWhile] at hdrop
  simp only [blockCloseWidth, hdrop, List.isPrefixOf_iff_prefix]

theorem dropWhile_line (l rest : List Char) : (l ++ '\n' :: rest).dropWhile isIndent = l.dropWhile isIndent ++ '\n' :: rest := by
  rw [List.dropWhile_append]
  split
  · rename_i h
    rw [List.isEmpty_iff.mp h]
    rfl
  · rfl

/-- A line of a block does not close it. -/
theorem BlockLine.blockCloseWidth_eq (h : BlockLine l) (rest : List Char) : blockCloseWidth ('\n' :: (l ++ '\n' :: rest)) = 0 := by
  have hbars : ¬ bars <+: l.dropWhile isIndent ++ '\n' :: rest := by
    intro hpre
    have hmem : '\n' ∈ l.dropWhile isIndent ++ ['\n'] := by simp
    rw [← List.singleton_append, ← List.append_assoc, prefix_append_of_mem hmem (by decide), List.prefix_concat_iff] at hpre
    rcases hpre with heq | hpre
    · rw [← heq] at hmem
      revert hmem
      decide
    · exact h.2 hpre
  rw [blockCloseWidth_newline, dropWhile_line, if_neg hbars]

theorem blockRest_append_of_notMem (h : '\n' ∉ l) (n : Nat) (rest : List Char) :
    blockRest n (l ++ rest) = blockRest (n + l.length) rest := by
  induction l generalizing n with
  | nil => rfl
  | cons c l ih =>
    rw [List.mem_cons, not_or] at h
    rw [List.cons_append, blockRest_cons, blockCloseWidth_of_ne (Ne.symm h.1), if_neg (by simp), ih h.2, List.length_cons]
    congr 1
    omega

/-- Behind the end of a line, a block goes on to the line that closes it. -/
theorem blockRest_lines (hlines : ∀ l ∈ lines, BlockLine l) (hclose : close.all isIndent = true) (n : Nat) :
    blockRest n ('\n' :: ['\n'].intercalate (lines ++ [close ++ bars])) =
      n + 1 + (['\n'].intercalate (lines ++ [close ++ bars])).length := by
  induction lines generalizing n with
  | nil =>
    have htake : (close ++ bars).takeWhile isIndent = close := takeWhile_append_of_all hclose (by decide)
    have hdrop : (close ++ bars).dropWhile isIndent = bars := by
      rw [List.dropWhile_append_of_pos (by simpa using hclose)]
      rfl
    rw [List.nil_append, List.intercalate_singleton, blockRest_cons, blockCloseWidth_newline, hdrop, htake,
      if_pos (List.prefix_refl bars), if_pos (by omega), List.length_append]
    show n + (1 + close.length + 3) = n + 1 + (close.length + 3)
    omega
  | cons l lines ih =>
    rw [List.forall_mem_cons] at hlines
    have hne : lines ++ [close ++ bars] ≠ [] := List.append_ne_nil_of_right_ne_nil _ (List.cons_ne_nil _ _)
    rw [List.cons_append, List.intercalate_cons_of_ne_nil hne, List.append_assoc, List.singleton_append, blockRest_cons,
      hlines.1.blockCloseWidth_eq, if_neg (by simp), blockRest_append_of_notMem hlines.1.1, ih hlines.2, List.length_append,
      List.length_cons]
    omega

theorem blockText_eq (chomp : Bool) (l : List Char) (lines : List (List Char)) (close : List Char) :
    blockText chomp (l :: lines) close =
      bars ++ ((if chomp then ['-'] else []) ++ '\n' :: (l ++ '\n' :: ['\n'].intercalate (lines ++ [close ++ bars]))) := by
  have hne : lines ++ [close ++ bars] ≠ [] := List.append_ne_nil_of_right_ne_nil _ (List.cons_ne_nil _ _)
  rw [blockText, List.cons_append, List.cons_append, List.intercalate_cons_cons, List.intercalate_cons_of_ne_nil hne]
  simp only [List.append_assoc, List.singleton_append]

/-- A block of lines that do not close it is one token, to its end. -/
theorem textBlockWidth_blockText (chomp : Bool) (hl : '\n' ∉ l) (hlines : ∀ l ∈ lines, BlockLine l)
    (hclose : close.all isIndent = true) :
    textBlockWidth (blockText chomp (l :: lines) close) = (blockText chomp (l :: lines) close).length := by
  have hbars : bars.length = 3 := rfl
  rw [blockText_eq, textBlockWidth_bars]
  cases chomp with
  | false =>
    have hopen (rest : List Char) : blockOpenWidth ('\n' :: rest) = 1 := rfl
    rw [if_neg Bool.false_ne_true, List.nil_append, hopen, if_neg (by omega), List.drop_succ_cons, List.drop_zero,
      blockRest_append_of_notMem hl, blockRest_lines hlines hclose]
    simp only [List.length_append, List.length_cons, hbars]
    omega
  | true =>
    have hopen (rest : List Char) : blockOpenWidth ('-' :: '\n' :: rest) = 2 := rfl
    rw [if_pos rfl, List.singleton_append, hopen, if_neg (by omega), List.drop_succ_cons, List.drop_succ_cons, List.drop_zero,
      blockRest_append_of_notMem hl, blockRest_lines hlines hclose]
    simp only [List.length_append, List.length_cons, hbars]
    omega

/-! ## The lines of a block -/

theorem blockLines_blockText (chomp : Bool) (hlines : ∀ l ∈ lines, '\n' ∉ l) (hclose : close.all isIndent = true) :
    Literal.blockLines (blockText chomp lines close) = lines := by
  have hmark : '\n' ∉ bars ++ if chomp then ['-'] else [] := by
    cases chomp <;> decide
  have hend : '\n' ∉ close ++ bars := by
    rw [List.mem_append, not_or]
    refine ⟨?_, by decide⟩
    intro hmem
    have hnl : isIndent '\n' = true := List.all_eq_true.mp hclose _ hmem
    cases hnl
  have hall : ∀ x ∈ (bars ++ if chomp then ['-'] else []) :: lines ++ [close ++ bars], '\n' ∉ x := by
    intro x hx
    rw [List.cons_append, List.mem_cons, List.mem_append, List.mem_singleton] at hx
    rcases hx with rfl | hx | rfl
    · exact hmark
    · exact hlines x hx
    · exact hend
  rw [Literal.blockLines, blockText, Text.split_intercalate (by simp) hall, List.cons_append, List.tail_cons, List.dropLast_concat]

theorem chomp_blockText (chomp : Bool) (l : List Char) (lines : List (List Char)) (close : List Char) :
    ['|', '|', '|', '-'].isPrefixOf (blockText chomp (l :: lines) close) = chomp := by
  rw [blockText_eq]
  cases chomp <;> rfl

end Ends

/-! ## The indent -/

section Indent

variable {indent l bad : List Char} {lines good more : List (List Char)} {place : Position}

def outdent (indent l : List Char) : List Char := if IsBlank l then [] else l.drop indent.length

theorem dedent_cons (line : Nat) (rest : List (List Char)) :
    Literal.dedent indent place line (l :: rest) =
      if IsBlank l ∨ indent <+: l then (Literal.dedent indent place (line + 1) rest).map (outdent indent l :: ·)
      else .error (.blockNotTerminated ⟨place.line + line, 1⟩) := by
  rw [Literal.dedent, outdent]
  by_cases hb : IsBlank l
  · have hall : l.all Text.isBlank = true := hb
    rw [if_pos hall, if_pos (.inl hb), if_pos hb]
  · have hall : ¬ l.all Text.isBlank = true := hb
    simp only [if_neg hall, hb, if_false, false_or, List.isPrefixOf_iff_prefix]

/-- The first line that is not blank and lacks the indent is a fault. -/
theorem dedent_error (h : ∀ l ∈ good, IsBlank l ∨ indent <+: l) (hb : ¬ (IsBlank bad ∨ indent <+: bad)) (line : Nat) :
    Literal.dedent indent place line (good ++ bad :: more) =
      .error (.blockNotTerminated ⟨place.line + (line + good.length : Nat), 1⟩) := by
  induction good generalizing line with
  | nil => rw [List.nil_append, dedent_cons, if_neg hb, List.length_nil, Nat.add_zero]
  | cons l good ih =>
    rw [List.forall_mem_cons] at h
    have hlen : line + 1 + good.length = line + (l :: good).length := by
      rw [List.length_cons]
      omega
    rw [List.cons_append, dedent_cons, if_pos h.1, ih h.2, hlen]
    rfl

/-- Lines that are not blank lose the indent that was put in front of them. -/
theorem dedent_indented (h : ∀ l ∈ lines, l = [] ∨ ¬ IsBlank l) (line : Nat) :
    Literal.dedent indent place line (indented indent lines) = .ok lines := by
  induction lines generalizing line with
  | nil => rfl
  | cons l lines ih =>
    rw [List.forall_mem_cons] at h
    rw [indented, List.map_cons, ← indented, dedent_cons]
    by_cases hl : l = []
    · subst hl
      rw [if_pos rfl, if_pos (.inl rfl), ih h.2]
      rfl
    · have hb : ¬ IsBlank (indent ++ l) := by
        unfold IsBlank
        rw [List.all_append, Bool.and_eq_true]
        exact fun hall => (h.1.resolve_left hl) hall.2
      rw [if_neg hl, if_pos (.inr (List.prefix_append indent l)), ih h.2, outdent, if_neg hb, List.drop_left]
      rfl

theorem joinLines_eq (chomp : Bool) (hne : lines ≠ []) : Literal.joinLines chomp lines = unlines chomp lines := by
  induction lines with
  | nil => exact absurd rfl hne
  | cons l lines ih =>
    cases lines with
    | nil =>
      rw [Literal.joinLines, unlines, List.intercalate_singleton]
      cases chomp with
      | true => exact (List.append_nil l).symm
      | false => rfl
    | cons m lines =>
      rw [Literal.joinLines, ih (List.cons_ne_nil m lines), unlines, unlines, List.intercalate_cons_cons, List.append_assoc,
        List.append_assoc, List.singleton_append]
      · exact List.cons_ne_nil m lines

end Indent

/-! ## The value of a block -/

section Values

variable {indent close first : List Char} {rest : List (List Char)}

theorem BlockLine.indented {l : List Char} (h : BlockLine l) (hindent : indent.all isIndent = true) : BlockLine (indent ++ l) := by
  refine ⟨?_, ?_⟩
  · rw [List.mem_append, not_or]
    refine ⟨?_, h.1⟩
    intro hmem
    have hnl : isIndent '\n' = true := List.all_eq_true.mp hindent _ hmem
    cases hnl
  · rw [List.dropWhile_append_of_pos (by simpa using hindent)]
    exact h.2

/-- A program that is one block is what is left of its lines, with the indent of the first line taken off. -/
theorem parse_blockText (file : Text) (chomp : Bool) (hindent : indent.all isIndent = true) (hne : indent ≠ [])
    (hclose : close.all isIndent = true) (hstart : first.head?.any isIndent = false) (hfirst : BlockLine first)
    (hrest : ∀ l ∈ rest, BlockLine l) :
    parse file (encodeChars (blockText chomp ((indent ++ first) :: rest) close)) =
      (Literal.dedent indent .origin 1 ((indent ++ first) :: rest)).map fun lines =>
        .string (.ofChars (Literal.joinLines chomp lines)) .block
          (wholeRange file (blockText chomp ((indent ++ first) :: rest) close)) := by
  have hall : ∀ l ∈ (indent ++ first) :: rest, '\n' ∉ l := by
    rw [List.forall_mem_cons]
    exact ⟨(hfirst.indented hindent).1, fun l hl => (hrest l hl).1⟩
  have hwidth := textBlockWidth_blockText chomp (hfirst.indented hindent).1 hrest hclose
  have htext : blockText chomp ((indent ++ first) :: rest) close ≠ [] := by
    rw [blockText_eq]
    exact List.cons_ne_nil _ _
  have htake : (indent ++ first).takeWhile Text.isIndent = indent := takeWhile_append_of_all hindent hstart
  have hempty : indent.isEmpty = false := by simpa using hne
  rw [parse_string (t := .textBlock) rfl htext hwidth, Literal.stringValue, Literal.blockValue]
  simp only [blockLines_blockText chomp hall hclose, chomp_blockText, List.headD_cons, htake, hempty, Bool.false_eq_true, if_false]
  cases Literal.dedent indent .origin 1 ((indent ++ first) :: rest) with
  | ok lines => rfl
  | error fault => rfl

end Values

/-- Lines that are put in a text block with an indent are the value of the block, each with a newline after it, the last one
    without if the block says so. Lines of which some is neither blank nor indented are refused at the first such line. -/
theorem text_block_decodes (file : Text) (chomp : Bool) {indent close first : List Char} (hindent : indent.all isIndent = true)
    (hne : indent ≠ []) (hclose : close.all isIndent = true) (hfirst : BlockLine first) (hblank : ¬ IsBlank first)
    (hstart : first.head?.any isIndent = false) :
    (∀ lines, (∀ l ∈ lines, BlockLine l ∧ (l = [] ∨ ¬ IsBlank l)) →
      parse file (encodeChars (blockText chomp (indented indent (first :: lines)) close)) =
        .ok (.string (.ofChars (unlines chomp (first :: lines))) .block
          (wholeRange file (blockText chomp (indented indent (first :: lines)) close)))) ∧
    ∀ good bad more, (∀ l ∈ good ++ bad :: more, BlockLine l) → (∀ l ∈ good, IsBlank l ∨ indent <+: l) →
      ¬ (IsBlank bad ∨ indent <+: bad) →
      parse file (encodeChars (blockText chomp ((indent ++ first) :: good ++ bad :: more) close)) =
        .error (.blockNotTerminated ⟨3 + good.length, 1⟩) := by
  constructor
  · intro lines hlines
    have hcons : indented indent (first :: lines) = (indent ++ first) :: indented indent lines := by
      have hnil : first ≠ [] := by
        rintro rfl
        exact hblank rfl
      rw [indented, List.map_cons, if_neg hnil, indented]
    have hrest : ∀ l ∈ indented indent lines, BlockLine l := by
      intro l hl
      obtain ⟨l, hmem, rfl⟩ := List.mem_map.mp hl
      split
      · decide
      · exact (hlines l hmem).1.indented hindent
    have hvalue : Literal.dedent indent .origin 1 (indented indent (first :: lines)) = .ok (first :: lines) := by
      refine dedent_indented ?_ 1
      rw [List.forall_mem_cons]
      exact ⟨.inr hblank, fun l hl => (hlines l hl).2⟩
    rw [hcons] at hvalue ⊢
    rw [parse_blockText file chomp hindent hne hclose hstart hfirst hrest, hvalue, ← joinLines_eq chomp (List.cons_ne_nil _ _)]
    rfl
  · intro good bad more hlines hgood hbad
    have hall : ∀ l ∈ (indent ++ first) :: good, IsBlank l ∨ indent <+: l := by
      rw [List.forall_mem_cons]
      exact ⟨.inr (List.prefix_append indent first), hgood⟩
    have hplace : Position.origin.line + (1 + ((indent ++ first) :: good).length : Nat) = 3 + good.length := by
      rw [List.length_cons]
      show (1 : Int) + (1 + (good.length + 1) : Nat) = 3 + good.length
      omega
    rw [List.cons_append, parse_blockText file chomp hindent hne hclose hstart hfirst hlines, ← List.cons_append,
      dedent_error hall hbad, hplace]
    rfl

/-- A chomped block that holds an empty line, a deeper indent and a carriage return; and a block whose fourth line has a space
    where its indent is a tab, below a line of nothing but spaces. -/
theorem text_block_decodes_mixed :
    parse "" (Utf8.encode "|||-\n  a\r\n\n    b |||\n\t|||") =
      .ok (.string "a\r\n\n  b |||" .block ⟨"", ⟨1, 1⟩, ⟨5, 5⟩⟩) ∧
    parse "" (Utf8.encode "|||\n\ta\n   \n b\nc\n|||") = .error (.blockNotTerminated ⟨4, 1⟩) := by
  have hvalue := (@text_block_decodes "" true [' ', ' '] ['\t'] ['a', '\r'] (by decide) (by decide)
    (by decide) (by decide) (by decide) (by decide)).1 [[], "  b |||".toList] (by decide)
  have hfault := (@text_block_decodes "" false ['\t'] [] ['a'] (by decide) (by decide)
    (by decide) (by decide) (by decide) (by decide)).2 [[' ', ' ', ' ']] [' ', 'b'] [['c']] (by decide) (by decide) (by decide)
  exact ⟨hvalue, hfault⟩

end JsonnetLocals
