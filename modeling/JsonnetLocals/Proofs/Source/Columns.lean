/-
  JsonnetLocals.Proofs.Source.Columns — where the line index puts a place of a text.

  Columns count characters and offsets count bytes, so the place after a text resolves short of its
  offset by the continuation bytes after the last newline, its drift (`offset_advance`). What it
  resolves to grows with the text all the same (`resolved_append_le`), so places that follow one
  another resolve to offsets that do.
-/

import JsonnetLocals.Proofs.Text.Utf8
import JsonnetLocals.Source.LineIndex
import JsonnetLocals.Source.Position
import Mathlib.Data.List.DropRight

namespace JsonnetLocals

open Utf8 (encodeChars encodeChars_append encodeChars_cons)

/-! ## Bytes of a character -/

def isAscii (c : Char) : Bool := c.toNat < 0x80

theorem utf8EncodeChar_of_isAscii {c : Char} (h : isAscii c = true) :
    String.utf8EncodeChar c = [UInt8.ofNat c.toNat] := by
  have hc : c.val.toNat ≤ 0x7f := Nat.lt_succ_iff.mp (of_decide_eq_true h)
  simp only [String.utf8EncodeChar, if_pos hc]
  rfl

theorem one_le_length_utf8EncodeChar (c : Char) : 1 ≤ (String.utf8EncodeChar c).length :=
  List.length_pos_iff.mpr String.utf8EncodeChar_ne_nil

theorem length_utf8EncodeChar_eq_one_iff {c : Char} : (String.utf8EncodeChar c).length = 1 ↔ isAscii c = true := by
  constructor
  · intro h
    simp only [String.utf8EncodeChar] at h
    split at h
    · rename_i hc
      exact decide_eq_true (Nat.lt_succ_iff.mpr hc)
    · split_ifs at h <;> simp at h
  · intro h
    rw [utf8EncodeChar_of_isAscii h]
    rfl

/-- No character but a newline has the byte of a newline. -/
theorem newline_notMem {c : Char} (h : c ≠ '\n') : LineIndex.newline ∉ String.utf8EncodeChar c := by
  have hn : c.val.toNat ≠ 10 := by
    intro e
    exact h (Char.ext (UInt32.toNat_inj.mp e))
  have byte {k : Nat} (h1 : k ≠ 10) (h2 : k < 256) : LineIndex.newline ≠ UInt8.ofNat k := by
    intro e
    have := congrArg UInt8.toNat e
    rw [Utf8.toNat_ofNat_of_lt h2] at this
    exact h1 this.symm
  simp only [String.utf8EncodeChar]
  split_ifs <;> simp only [List.mem_cons, List.not_mem_nil, or_false, not_or]
  · exact byte hn (by omega)
  · exact ⟨byte (by omega) (by omega), byte (by omega) (by omega)⟩
  · exact ⟨byte (by omega) (by omega), byte (by omega) (by omega), byte (by omega) (by omega)⟩
  · exact ⟨byte (by omega) (by omega), byte (by omega) (by omega), byte (by omega) (by omega),
      byte (by omega) (by omega)⟩

def isContinuation (b : UInt8) : Bool := 0x80 ≤ b.toNat && b.toNat < 0xc0

/-- The first byte of a character begins it, and the others go on with it. -/
theorem exists_utf8EncodeChar_eq (c : Char) :
    ∃ first rest, String.utf8EncodeChar c = first :: rest ∧ isContinuation first = false ∧
      ∀ b ∈ rest, isContinuation b = true := by
  have hfirst {n : Nat} (hn : n < 0x80 ∨ 0xc0 ≤ n) (hlt : n < 256) : isContinuation (UInt8.ofNat n) = false := by
    simp only [isContinuation, Utf8.toNat_ofNat_of_lt hlt, Bool.and_eq_false_iff, decide_eq_false_iff_not]
    omega
  have hnext (n : Nat) : isContinuation (UInt8.ofNat (n % 64 + 128)) = true := by
    simp only [isContinuation, Utf8.toNat_ofNat_of_lt (show n % 64 + 128 < 256 by omega), Bool.and_eq_true, decide_eq_true_eq]
    omega
  simp only [String.utf8EncodeChar]
  split_ifs
  · exact ⟨_, _, rfl, hfirst (by omega) (by omega), List.forall_mem_nil _⟩
  · refine ⟨_, _, rfl, hfirst (by omega) (by omega), ?_⟩
    simp only [List.forall_mem_cons]
    exact ⟨hnext _, List.forall_mem_nil _⟩
  · refine ⟨_, _, rfl, hfirst (by omega) (by omega), ?_⟩
    simp only [List.forall_mem_cons]
    exact ⟨hnext _, hnext _, List.forall_mem_nil _⟩
  · refine ⟨_, _, rfl, hfirst (by omega) (by omega), ?_⟩
    simp only [List.forall_mem_cons]
    exact ⟨hnext _, hnext _, hnext _, List.forall_mem_nil _⟩

/-! ## The line index of a text -/

theorem startsAfter_append (o : Nat) (a b : Bytes) :
    LineIndex.startsAfter o (a ++ b) = LineIndex.startsAfter o a ++ LineIndex.startsAfter (o + a.length) b := by
  induction a generalizing o with
  | nil => rfl
  | cons x a ih =>
    simp only [List.cons_append, LineIndex.startsAfter, ih, List.length_cons]
    rw [show o + 1 + a.length = o + (a.length + 1) by omega]
    split <;> rfl

theorem startsAfter_eq_nil {o : Nat} {bs : Bytes} (h : LineIndex.newline ∉ bs) : LineIndex.startsAfter o bs = [] := by
  induction bs generalizing o with
  | nil => rfl
  | cons b bs ih =>
    rw [List.mem_cons, not_or] at h
    rw [LineIndex.startsAfter, if_neg (Ne.symm h.1), ih h.2]

theorem startsAfter_encodeChar (o : Nat) (c : Char) :
    LineIndex.startsAfter o (String.utf8EncodeChar c) = if c = '\n' then [o + 1] else [] := by
  split
  · rename_i h
    subst h
    rfl
  · exact startsAfter_eq_nil (newline_notMem ‹_›)

def lineTail (cs : List Char) : List Char := cs.rtakeWhile (· ≠ '\n')

theorem lineTail_concat (cs : List Char) (c : Char) :
    lineTail (cs ++ [c]) = if c = '\n' then [] else lineTail cs ++ [c] := by
  rw [lineTail, List.rtakeWhile_concat]
  by_cases h : c = '\n' <;> simp [h, lineTail]

def lineStart (cs : List Char) : Nat := (encodeChars cs).length - (encodeChars (lineTail cs)).length

theorem encodeChars_singleton (c : Char) : encodeChars [c] = String.utf8EncodeChar c := by
  rw [encodeChars_cons]
  exact List.append_nil _

theorem lineTail_le (cs : List Char) : (encodeChars (lineTail cs)).length ≤ (encodeChars cs).length := by
  obtain ⟨front, h⟩ := List.rtakeWhile_suffix (p := (· ≠ '\n')) (l := cs)
  have := congrArg (fun l => (encodeChars l).length) h
  simp only [encodeChars_append, List.length_append] at this
  show (encodeChars (cs.rtakeWhile _)).length ≤ _
  omega

theorem lineStart_concat (cs : List Char) (c : Char) :
    lineStart (cs ++ [c]) = if c = '\n' then (encodeChars cs).length + 1 else lineStart cs := by
  have := lineTail_le cs
  simp only [lineStart, lineTail_concat, encodeChars_append, encodeChars_singleton, List.length_append]
  split
  · rename_i h
    subst h
    rfl
  · simp only [encodeChars_append, encodeChars_singleton, List.length_append]
    omega

theorem build_append (a b : Bytes) : LineIndex.build (a ++ b) = LineIndex.build a ++ LineIndex.startsAfter a.length b := by
  rw [LineIndex.build, startsAfter_append, ← List.cons_append, Nat.zero_add]
  rfl

theorem build_concat (cs : List Char) (c : Char) :
    LineIndex.build (encodeChars (cs ++ [c])) =
      LineIndex.build (encodeChars cs) ++ if c = '\n' then [(encodeChars cs).length + 1] else [] := by
  rw [encodeChars_append, encodeChars_singleton, build_append, startsAfter_encodeChar]

/-- The last line that starts in a text is the one on which it ends. -/
theorem getLast?_build (cs : List Char) : (LineIndex.build (encodeChars cs)).getLast? = some (lineStart cs) := by
  induction cs using List.reverseRecOn with
  | nil => rfl
  | append_singleton cs c ih =>
    rw [build_concat, lineStart_concat]
    split
    · exact List.getLast?_concat
    · rwa [List.append_nil]

theorem length_build (cs : List Char) : (LineIndex.build (encodeChars cs)).length = cs.count '\n' + 1 := by
  induction cs using List.reverseRecOn with
  | nil => rfl
  | append_singleton cs c ih =>
    rw [build_concat, List.length_append, ih, List.count_append, List.count_singleton]
    by_cases h : c = '\n' <;> simp [h]

/-- The index holds the start of the line on which any front of the text ends. -/
theorem getElem?_build (before after : List Char) :
    (LineIndex.build (encodeChars (before ++ after)))[before.count '\n']? = some (lineStart before) := by
  have hlen := length_build before
  rw [encodeChars_append, build_append, List.getElem?_append_left (by omega), ← getLast?_build, List.getLast?_eq_getElem?,
    hlen, Nat.add_sub_cancel]

/-! ## Places -/

theorem advance_eq (cs : List Char) :
    Position.origin.advance cs = ⟨cs.count '\n' + 1, (lineTail cs).length + 1⟩ := by
  induction cs using List.reverseRecOn with
  | nil => rfl
  | append_singleton cs c ih =>
    have hstep : Position.origin.advance (cs ++ [c]) = (Position.origin.advance cs).step c := List.foldl_append
    rw [hstep, ih]
    simp only [Position.step, lineTail_concat, List.count_append, List.count_singleton, beq_iff_eq]
    split <;> simp

/-- The continuation bytes of the characters after the last newline. -/
def drift (cs : List Char) : Nat := (encodeChars (lineTail cs)).length - (lineTail cs).length

/-- What the place after a text resolves to. -/
def resolved (cs : List Char) : Nat := lineStart cs + (lineTail cs).length

theorem length_le_encodeChars (cs : List Char) : cs.length ≤ (encodeChars cs).length := by
  induction cs with
  | nil => exact Nat.le_refl 0
  | cons c cs ih =>
    have := one_le_length_utf8EncodeChar c
    rw [encodeChars_cons, List.length_append, List.length_cons]
    omega

/-- A place falls short of its offset by the drift. -/
theorem resolved_add_drift (cs : List Char) : resolved cs + drift cs = (encodeChars cs).length := by
  have h1 := lineTail_le cs
  have h2 := length_le_encodeChars (lineTail cs)
  simp only [resolved, drift, lineStart]
  omega

/-- The place after a front of the text, through the index of the text. -/
theorem offset_advance (before after : List Char) :
    LineIndex.offset (LineIndex.build (encodeChars (before ++ after))) ((Position.origin.advance before).line - 1)
      ((Position.origin.advance before).column - 1) = resolved before := by
  have hget := getElem?_build before after
  simp only [advance_eq, LineIndex.offset, Int.add_sub_cancel, Int.toNat_natCast, hget, resolved]
  rw [if_neg (by omega)]
  push_cast
  rfl

theorem resolved_concat (cs : List Char) (c : Char) :
    resolved (cs ++ [c]) = if c = '\n' then (encodeChars cs).length + 1 else resolved cs + 1 := by
  simp only [resolved, lineStart_concat, lineTail_concat]
  split <;> simp [Nat.add_assoc]

/-- Later places resolve to later offsets. -/
theorem resolved_append_le (cs ds : List Char) : resolved cs + (if '\n' ∈ ds then 0 else ds.length) ≤ resolved (cs ++ ds) := by
  induction ds using List.reverseRecOn with
  | nil => simp
  | append_singleton ds d ih =>
    have := resolved_add_drift (cs ++ ds)
    rw [← List.append_assoc, resolved_concat]
    simp only [List.mem_append, List.mem_singleton, List.length_append, List.length_singleton] at ih ⊢
    by_cases h : d = '\n'
    · rw [if_pos (Or.inr h.symm), if_pos h]
      split at ih <;> omega
    · rw [if_neg h]
      by_cases h' : '\n' ∈ ds
      · rw [if_pos (Or.inl h')]
        rw [if_pos h'] at ih
        omega
      · rw [if_neg (by simp [h', Ne.symm h])]
        rw [if_neg h'] at ih
        omega

/-- A text without newlines moves the place by its length. -/
theorem resolved_append_of_notMem {cs ds : List Char} (h : '\n' ∉ ds) : resolved (cs ++ ds) = resolved cs + ds.length := by
  induction ds using List.reverseRecOn with
  | nil => simp
  | append_singleton ds d ih =>
    rw [List.mem_append, List.mem_singleton, not_or] at h
    rw [← List.append_assoc, resolved_concat, if_neg (Ne.symm h.2), ih h.1, List.length_append, List.length_singleton,
      Nat.add_assoc]

/-- A place does not drift exactly when only ASCII precedes it on its line. -/
theorem drift_eq_zero_iff (cs : List Char) : drift cs = 0 ↔ (lineTail cs).all isAscii = true := by
  have key (ds : List Char) : (encodeChars ds).length = ds.length ↔ ds.all isAscii = true := by
    induction ds with
    | nil => simp [encodeChars]
    | cons d ds ih =>
      have h1 := one_le_length_utf8EncodeChar d
      have h2 := length_le_encodeChars ds
      rw [encodeChars_cons, List.length_append, List.length_cons, List.all_cons, Bool.and_eq_true, ← ih,
        ← length_utf8EncodeChar_eq_one_iff]
      omega
  have := length_le_encodeChars (lineTail cs)
  rw [← key, drift]
  omega

end JsonnetLocals
