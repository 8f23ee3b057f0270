/-
  JsonnetLocals.Proofs.Source.Drift — how far the place of a character misses its byte.

  Of the bytes of a character all but the first are continuation bytes, and a place is counted in
  characters. So it falls short of the offset by the continuation bytes before it on its line
  (`drift_eq_countP`). The line index of a buffer rises (`pairwise_build`), and each line starts past
  all bytes of the line before it (`lt_of_getElem?_build`). `columns_fall_short` puts these together: a place
  resolves to an offset on its own line, and to its own offset exactly when only ASCII precedes it there.
-/

import JsonnetLocals.Proofs.Source.Columns

namespace JsonnetLocals

open Utf8 (encodeChars encodeChars_append)

/-! ## Continuation bytes in a text -/

theorem countP_isContinuation_utf8EncodeChar (c : Char) :
    (String.utf8EncodeChar c).countP isContinuation + 1 = (String.utf8EncodeChar c).length := by
  obtain ⟨first, rest, hc, hfirst, hrest⟩ := exists_utf8EncodeChar_eq c
  rw [hc, List.countP_cons_of_neg (by simp [hfirst]), List.countP_eq_length.mpr hrest, List.length_cons]

/-- Each character has one byte that is no continuation byte. -/
theorem countP_isContinuation_encodeChars (cs : List Char) :
    (encodeChars cs).countP isContinuation + cs.length = (encodeChars cs).length := by
  induction cs with
  | nil => rfl
  | cons c cs ih =>
    have hc := countP_isContinuation_utf8EncodeChar c
    rw [Utf8.encodeChars_cons, List.countP_append, List.length_append, List.length_cons]
    omega

/-- The drift of a place is counted in continuation bytes. -/
theorem drift_eq_countP (cs : List Char) : drift cs = (encodeChars (lineTail cs)).countP isContinuation := by
  have := countP_isContinuation_encodeChars (lineTail cs)
  rw [drift]
  omega

/-! ## The line index of a buffer -/

theorem lt_of_mem_startsAfter {o n : Nat} {bs : Bytes} (h : n ∈ LineIndex.startsAfter o bs) : o < n := by
  induction bs generalizing o with
  | nil => cases h
  | cons b bs ih =>
    rw [LineIndex.startsAfter] at h
    split at h
    · rcases List.mem_cons.mp h with rfl | h
      · exact Nat.lt_succ_self o
      · exact Nat.lt_of_succ_lt (ih h)
    · exact Nat.lt_of_succ_lt (ih h)

theorem pairwise_startsAfter (o : Nat) (bs : Bytes) : (LineIndex.startsAfter o bs).Pairwise (· < ·) := by
  induction bs generalizing o with
  | nil => exact List.Pairwise.nil
  | cons b bs ih =>
    rw [LineIndex.startsAfter]
    split
    · exact List.pairwise_cons.mpr ⟨fun n hn => lt_of_mem_startsAfter hn, ih (o + 1)⟩
    · exact ih (o + 1)

/-- Each line starts later than the one before it. -/
theorem pairwise_build (source : Bytes) : (LineIndex.build source).Pairwise (· < ·) :=
  List.pairwise_cons.mpr ⟨fun _ hn => lt_of_mem_startsAfter hn, pairwise_startsAfter 0 source⟩

/-- The line after the one on which a front of the text ends starts later than the front ends. -/
theorem lt_of_getElem?_build {before after : List Char} {n : Nat}
    (h : (LineIndex.build (encodeChars (before ++ after)))[before.count '\n' + 1]? = some n) :
    (encodeChars before).length < n := by
  rw [encodeChars_append, build_append, List.getElem?_append_right (by rw [length_build])] at h
  exact lt_of_mem_startsAfter (List.mem_of_getElem? h)

/-! ## What a place resolves to -/

/-- The offset is one of a line of a buffer, or the end of the buffer on its last line. -/
structure LineIndex.OnLine (source : Bytes) (line : Nat) (offset : Int) : Prop where
  start : ∃ n, (build source)[line]? = some n ∧ (n : Int) ≤ offset
  next : ∀ n, (build source)[line + 1]? = some n → offset < n
  stop : offset ≤ source.length

theorem onLine_resolved (before after : List Char) :
    LineIndex.OnLine (encodeChars (before ++ after)) (before.count '\n') (resolved before) := by
  have hdrift := resolved_add_drift before
  refine ⟨⟨lineStart before, getElem?_build before after, ?_⟩, fun n hn => ?_, ?_⟩
  · rw [resolved]
    omega
  · have := lt_of_getElem?_build hn
    omega
  · rw [encodeChars_append, List.length_append]
    omega

def placeAt (cs : List Char) (i : Nat) : Position := Position.origin.advance (cs.take i)

/-- The offset at which the line index of a text finds that place. -/
def foundAt (cs : List Char) (i : Nat) : Int :=
  LineIndex.offset (LineIndex.build (encodeChars cs)) ((placeAt cs i).line - 1) ((placeAt cs i).column - 1)

theorem foundAt_eq_resolved (cs : List Char) (i : Nat) : foundAt cs i = resolved (cs.take i) := by
  have h := offset_advance (cs.take i) (cs.drop i)
  rwa [List.take_append_drop] at h

theorem toNat_line_placeAt (cs : List Char) (i : Nat) : ((placeAt cs i).line - 1).toNat = (cs.take i).count '\n' := by
  rw [placeAt, advance_eq, Int.add_sub_cancel, Int.toNat_natCast]

/-- The index of a text rises from zero and has an entry for each line. A place is found short of its offset
    by the continuation bytes before it on its line. So it is found on its line, and at its offset exactly
    when only ASCII precedes it there. -/
theorem columns_fall_short (cs : List Char) (i : Nat) :
    (LineIndex.build (encodeChars cs)).Pairwise (· < ·) ∧ (LineIndex.build (encodeChars cs)).head? = some 0 ∧
      (LineIndex.build (encodeChars cs)).length = cs.count '\n' + 1 ∧
      foundAt cs i =
        ((encodeChars (cs.take i)).length : Int) - (encodeChars (lineTail (cs.take i))).countP isContinuation ∧
      LineIndex.OnLine (encodeChars cs) ((placeAt cs i).line - 1).toNat (foundAt cs i) ∧
      (foundAt cs i = (encodeChars (cs.take i)).length ↔ (lineTail (cs.take i)).all isAscii = true) := by
  have hdrift := resolved_add_drift (cs.take i)
  refine ⟨pairwise_build _, rfl, length_build cs, ?_, ?_, ?_⟩
  · rw [foundAt_eq_resolved, ← drift_eq_countP]
    omega
  · have h := onLine_resolved (cs.take i) (cs.drop i)
    rwa [List.take_append_drop, ← toNat_line_placeAt, ← foundAt_eq_resolved] at h
  · rw [foundAt_eq_resolved, ← drift_eq_zero_iff]
    omega

/-- The byte of `x` is at 8, and it is looked for at 4: one byte short of `é` and three of the other. -/
example : LineIndex.offset (LineIndex.build (encodeChars ['a', '\n', 'é', '😀', 'x'])) 1 2 = 4 := by decide

end JsonnetLocals
