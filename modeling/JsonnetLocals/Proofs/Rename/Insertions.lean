/-
  JsonnetLocals.Proofs.Rename.Insertions — renaming a text that was read only inserts.

  Whatever stands on a line before a name, renaming goes through: the queued edits are apart from
  one another and inside the buffer, because later words are looked for later (`Parsed.apart`).
  Each edit puts the mark of the file in front of what it covers, so
  - the code is the source with the mark in front of some of its bytes (`Edit.weave_eq_insertMarks`),
    and taking the marks out gives the source back (`removeMarks_insertMarks`),
  - these bytes are ASCII, so no character is torn apart and the code is a text again
    (`exists_insertMarks_eq`).
  `rename_inserts` puts these together.
-/

import JsonnetLocals.Config.Settings
import JsonnetLocals.Proofs.Rename.Reparse
import Mathlib.Data.Nat.Digits.Defs

namespace JsonnetLocals

open Utf8 (encodeChars encodeChars_append encodeChars_cons)

/-! ## Marks in a buffer -/

/-- The bytes with `mark` in front of each byte whose offset is in `starts`; the first offset is `pos`. -/
def insertMarks (mark : Bytes) (starts : List Nat) (pos : Nat) : Bytes → Bytes
  | [] => []
  | b :: rest => (if pos ∈ starts then mark else []) ++ b :: insertMarks mark starts (pos + 1) rest

/-- The bytes from the offset `pos` on, without the mark of `width` bytes that stands there. -/
def skipMark (width : Nat) (starts : List Nat) (pos : Nat) (code : Bytes) : Bytes :=
  if pos ∈ starts then code.drop width else code

theorem length_skipMark_le (width : Nat) (starts : List Nat) (pos : Nat) (code : Bytes) :
    (skipMark width starts pos code).length ≤ code.length := by
  unfold skipMark
  split
  · rw [List.length_drop]
    exact Nat.sub_le ..
  · exact Nat.le_refl _

/-- Takes `width` bytes out in front of each byte whose offset, among the bytes that stay, is in
    `starts`. -/
def removeMarks (width : Nat) (starts : List Nat) (pos : Nat) (code : Bytes) : Bytes :=
  match _h : skipMark width starts pos code with
  | [] => []
  | b :: rest => b :: removeMarks width starts (pos + 1) rest
termination_by code.length
decreasing_by
  have hle := length_skipMark_le width starts pos code
  rw [_h, List.length_cons] at hle
  omega

section Marks

variable {mark : Bytes} {starts : List Nat} {pos : Nat}

theorem insertMarks_append (xs ys : Bytes) :
    insertMarks mark starts pos (xs ++ ys) =
      insertMarks mark starts pos xs ++ insertMarks mark starts (pos + xs.length) ys := by
  induction xs generalizing pos with
  | nil => rfl
  | cons x xs ih =>
    simp only [List.cons_append, insertMarks, ih, List.length_cons, List.append_assoc]
    rw [show pos + 1 + xs.length = pos + (xs.length + 1) by omega]

theorem insertMarks_of_notMem {bs : Bytes} (h : ∀ s ∈ starts, s < pos ∨ pos + bs.length ≤ s) :
    insertMarks mark starts pos bs = bs := by
  induction bs generalizing pos with
  | nil => rfl
  | cons b bs ih =>
    have hpos : pos ∉ starts := by
      intro hm
      have := h pos hm
      rw [List.length_cons] at this
      omega
    rw [insertMarks, if_neg hpos, List.nil_append, ih]
    intro s hs
    have := h s hs
    rw [List.length_cons] at this
    omega

/-- Only the starts from `pos` on matter. -/
theorem insertMarks_congr {starts' : List Nat} (h : ∀ s, pos ≤ s → (s ∈ starts ↔ s ∈ starts')) (bs : Bytes) :
    insertMarks mark starts pos bs = insertMarks mark starts' pos bs := by
  induction bs generalizing pos with
  | nil => rfl
  | cons b bs ih =>
    have hrest : ∀ s, pos + 1 ≤ s → (s ∈ starts ↔ s ∈ starts') := by
      intro s hs
      exact h s (by omega)
    simp only [insertMarks, h pos (Nat.le_refl pos), ih hrest]

/-- The mark stands in front of the bytes that begin at a start. -/
theorem insertMarks_of_start {b : UInt8} {bs : Bytes} (hm : pos ∈ starts)
    (h : ∀ s ∈ starts, s ≤ pos ∨ pos + (b :: bs).length ≤ s) :
    insertMarks mark starts pos (b :: bs) = mark ++ b :: bs := by
  rw [insertMarks, if_pos hm, insertMarks_of_notMem]
  intro s hs
  have := h s hs
  rw [List.length_cons] at this
  omega

/-- Up to the first start, what it covers, and what stands behind: the mark is in front of what is covered. -/
theorem insertMarks_drop {source : Bytes} {s t : Nat} (hs : pos ≤ s) (hlt : s < t) (ht : t ≤ source.length)
    (h : ∀ d ∈ starts, t ≤ d) :
    insertMarks mark (s :: starts) pos (source.drop pos) =
      (source.drop pos).take (s - pos) ++
        (mark ++ (source.drop s).take (t - s) ++ insertMarks mark starts t (source.drop t)) := by
  have hstarts : ∀ d ∈ s :: starts, d = s ∨ t ≤ d := fun d hd => (List.mem_cons.mp hd).imp id (h d)
  have hcut : source.drop pos = (source.drop pos).take (s - pos) ++ ((source.drop s).take (t - s) ++ source.drop t) := by
    have h1 := (List.take_append_drop (s - pos) (source.drop pos)).symm
    have h2 := (List.take_append_drop (t - s) (source.drop s)).symm
    rw [List.drop_drop, show pos + (s - pos) = s by omega] at h1
    rw [List.drop_drop, show s + (t - s) = t by omega] at h2
    rwa [h2] at h1
  have hlen1 : ((source.drop pos).take (s - pos)).length = s - pos := by
    rw [List.length_take, List.length_drop]
    omega
  have hlen2 : ((source.drop s).take (t - s)).length = t - s := by
    rw [List.length_take, List.length_drop]
    omega
  have hbefore : insertMarks mark (s :: starts) pos ((source.drop pos).take (s - pos)) =
      (source.drop pos).take (s - pos) := by
    refine insertMarks_of_notMem ?_
    intro d hd
    have := hstarts d hd
    rw [hlen1]
    omega
  have hcovered : insertMarks mark (s :: starts) s ((source.drop s).take (t - s)) =
      mark ++ (source.drop s).take (t - s) := by
    obtain ⟨b, bs, hb⟩ := List.exists_cons_of_length_pos (show 0 < ((source.drop s).take (t - s)).length by omega)
    rw [hb] at hlen2 ⊢
    refine insertMarks_of_start List.mem_cons_self ?_
    intro d hd
    have := hstarts d hd
    omega
  have hbehind : insertMarks mark (s :: starts) t (source.drop t) = insertMarks mark starts t (source.drop t) := by
    refine insertMarks_congr ?_ _
    intro d hd
    rw [List.mem_cons]
    constructor
    · rintro (rfl | hm)
      · omega
      · exact hm
    · exact .inr
  conv_lhs => rw [hcut]
  rw [insertMarks_append, insertMarks_append, hlen1, hlen2, show pos + (s - pos) = s by omega,
    show s + (t - s) = t by omega, hbefore, hcovered, hbehind]

theorem skipMark_insertMarks (bs : Bytes) (b : UInt8) :
    skipMark mark.length starts pos (insertMarks mark starts pos (b :: bs)) = b :: insertMarks mark starts (pos + 1) bs := by
  rw [skipMark, insertMarks]
  by_cases hm : pos ∈ starts
  · rw [if_pos hm, if_pos hm, List.drop_left]
  · rw [if_neg hm, if_neg hm, List.nil_append]

/-- Taking the marks out gives the bytes back. -/
theorem removeMarks_insertMarks (bs : Bytes) : removeMarks mark.length starts pos (insertMarks mark starts pos bs) = bs := by
  induction bs generalizing pos with
  | nil =>
    have hskip : skipMark mark.length starts pos [] = [] := by simp [skipMark]
    rw [insertMarks, removeMarks]
    split
    · rfl
    · rename_i heq
      rw [hskip] at heq
      cases heq
  | cons b bs ih =>
    rw [removeMarks]
    split <;> rename_i heq <;> rw [skipMark_insertMarks] at heq
    · cases heq
    · cases heq
      rw [ih]

/-- The marks in front of bytes that are there make the buffer longer by one mark each. -/
theorem length_insertMarks {bs : Bytes} (hn : starts.Nodup) (h : ∀ s ∈ starts, pos ≤ s ∧ s < pos + bs.length) :
    (insertMarks mark starts pos bs).length = bs.length + starts.length * mark.length := by
  induction bs generalizing pos starts with
  | nil =>
    have : starts = [] := by
      rw [List.eq_nil_iff_forall_not_mem]
      intro s hs
      have := h s hs
      simp only [List.length_nil] at this
      omega
    rw [this]
    simp [insertMarks]
  | cons b bs ih =>
    have hrest : ∀ s ∈ starts.erase pos, pos + 1 ≤ s ∧ s < pos + 1 + bs.length := by
      intro s hs
      rw [hn.mem_erase_iff] at hs
      have := h s hs.2
      rw [List.length_cons] at this
      omega
    have hcongr : insertMarks mark starts (pos + 1) bs = insertMarks mark (starts.erase pos) (pos + 1) bs := by
      refine insertMarks_congr ?_ bs
      intro s hs
      rw [hn.mem_erase_iff]
      constructor
      · intro hm
        exact ⟨by omega, hm⟩
      · exact And.right
    rw [insertMarks, hcongr, List.length_append, List.length_cons, ih (hn.erase pos) hrest, List.length_cons]
    by_cases hm : pos ∈ starts
    · have hlen := List.length_erase_of_mem hm
      have hpos := List.length_pos_of_mem hm
      rw [if_pos hm, show starts.length = (starts.erase pos).length + 1 by omega, Nat.add_mul]
      omega
    · rw [if_neg hm, List.erase_of_not_mem hm, List.length_nil]
      omega

/-- The bytes of a character after its first one are not ASCII. -/
theorem le_of_mem_tail_utf8EncodeChar {c : Char} {b : UInt8} (h : b ∈ (String.utf8EncodeChar c).tail) : 0x80 ≤ b.toNat := by
  obtain ⟨first, rest, hc, -, hrest⟩ := exists_utf8EncodeChar_eq c
  rw [hc, List.tail_cons] at h
  have hb := hrest b h
  simp only [isContinuation, Bool.and_eq_true, decide_eq_true_eq] at hb
  exact hb.1

/-- Marks in front of ASCII bytes only tear no character apart. -/
theorem exists_insertMarks_eq {ms : List Char} (cs : List Char)
    (h : ∀ i b, pos + i ∈ starts → (encodeChars cs)[i]? = some b → b.toNat < 0x80) :
    ∃ ds, insertMarks (encodeChars ms) starts pos (encodeChars cs) = encodeChars ds := by
  induction cs generalizing pos with
  | nil => exact ⟨[], rfl⟩
  | cons c cs ih =>
    obtain ⟨b, tail, hc⟩ := List.exists_cons_of_ne_nil (String.utf8EncodeChar_ne_nil (c := c))
    rw [encodeChars_cons] at h ⊢
    have hrest : ∀ i b, pos + (String.utf8EncodeChar c).length + i ∈ starts → (encodeChars cs)[i]? = some b → b.toNat < 0x80 := by
      intro i b' hm hb'
      refine h ((String.utf8EncodeChar c).length + i) b' (by rwa [← Nat.add_assoc]) ?_
      rwa [List.getElem?_append_right (by omega), Nat.add_sub_cancel_left]
    obtain ⟨ds, hds⟩ := ih hrest
    -- a start is at the first byte of the character, if it is in the character at all
    have htail : insertMarks (encodeChars ms) starts (pos + 1) tail = tail := by
      refine insertMarks_of_notMem ?_
      intro s hs
      by_contra hin
      obtain ⟨i, rfl⟩ : ∃ i, s = pos + (i + 1) := ⟨s - (pos + 1), by omega⟩
      have hi : i < tail.length := by omega
      have hbyte : (String.utf8EncodeChar c ++ encodeChars cs)[i + 1]? = some tail[i] := by
        rw [hc, List.cons_append, List.getElem?_cons_succ, List.getElem?_append_left hi, List.getElem?_eq_getElem hi]
      have hlow := h (i + 1) tail[i] hs hbyte
      have hhigh : 0x80 ≤ tail[i].toNat := le_of_mem_tail_utf8EncodeChar (by rw [hc]; exact List.getElem_mem hi)
      omega
    rw [insertMarks_append, hds]
    by_cases hm : pos ∈ starts
    · refine ⟨ms ++ c :: ds, ?_⟩
      rw [encodeChars_append, encodeChars_cons, hc, insertMarks, if_pos hm, htail, List.append_assoc]
    · refine ⟨c :: ds, ?_⟩
      rw [encodeChars_cons, hc, insertMarks, if_neg hm, htail, List.nil_append]

end Marks

/-! ## Edits that insert -/

/-- Edits that put a mark in front of what they cover weave it in where they start. -/
theorem Edit.weave_eq_insertMarks {source mark : Bytes} {text : Edit → Bytes} {es : List Edit} {pos : Nat}
    (ho : InOrder source.length es) (hle : ∀ e ∈ es, (pos : Int) ≤ e.start)
    (ht : ∀ e ∈ es, text e = mark ++ (source.drop e.start.toNat).take (e.stop.toNat - e.start.toNat)) :
    weave source text pos es = insertMarks mark (es.map (·.start.toNat)) pos (source.drop pos) := by
  induction es generalizing pos with
  | nil =>
    rw [weave, insertMarks_of_notMem]
    intro s hs
    cases hs
  | cons e es ih =>
    obtain ⟨hstart, hlt, hstop⟩ := ho.inside e List.mem_cons_self
    have hpos := hle e List.mem_cons_self
    obtain ⟨hafter, hapart⟩ := List.pairwise_cons.mp ho.apart
    have hstop' : ∀ d ∈ es, ((e.stop.toNat : Nat) : Int) ≤ d.start := by
      intro d hd
      have := hafter d hd
      omega
    have hih := ih ⟨fun d hd => ho.inside d (List.mem_cons_of_mem e hd), hapart⟩ hstop'
      fun d hd => ht d (List.mem_cons_of_mem e hd)
    rw [weave, ht e List.mem_cons_self, hih, List.map_cons,
      insertMarks_drop (t := e.stop.toNat) (by omega) (by omega) (by omega), List.append_assoc]
    intro s hs
    obtain ⟨d, hd, rfl⟩ := List.mem_map.mp hs
    have := hafter d hd
    omega

/-! ## The width of the mark -/

/-- A tag is an underscore and eight digits. -/
theorem length_tagOf (bs : Bytes) : (tagOf bs).toList.length = 9 := by
  have hdigits : (Nat.toDigits 16 (Fnv.hash bs).toNat).length ≤ 8 :=
    Nat.toDigits_length 16 _ 8 (by decide) (Fnv.hash bs).toNat_lt
  rw [toList_tagOf, List.length_cons, Utf8.hexDigits, String.toList_ofList, List.length_append, List.length_replicate]
  omega

theorem length_of_fileTag {identity : Text} {tag : String} (h : fileTag identity = .ok tag) : tag.toList.length = 9 := by
  unfold fileTag at h
  cases he : identity.encode with
  | error => rw [he] at h; cases h
  | ok bs =>
    rw [he] at h
    cases h
    exact length_tagOf bs

/-- Name characters take one byte each. -/
theorem length_encodeChars_of_isNameChar {cs : List Char} (h : cs.all Lexeme.isNameChar = true) :
    (encodeChars cs).length = cs.length := by
  refine length_encodeChars_of_all (List.all_eq_true.mpr ?_)
  intro c hc
  exact Lexeme.isAscii_of_isNameChar (List.all_eq_true.mp h c hc)

/-- The tag has nine characters, and each character of the mark takes one byte. -/
theorem length_mark {identity : Text} {tag : String} {seps : List Char} (ht : fileTag identity = .ok tag)
    (hseps : seps.all Lexeme.isNameChar = true) :
    (Utf8.encode tag ++ encodeChars seps).length = 9 + (Text.ofChars seps).length := by
  have hall : (tag.toList ++ seps).all Lexeme.isNameChar = true := (isTag_append (isTag_of_fileTag ht) hseps).2
  have hmark : Utf8.encode tag ++ encodeChars seps = encodeChars (tag.toList ++ seps) := (encodeChars_append _ _).symm
  rw [hmark, length_encodeChars_of_isNameChar hall, List.length_append, length_of_fileTag ht]
  exact congrArg (9 + ·) (List.length_map ..).symm

theorem checkSeparator_eq_ok_iff {separator : Text} :
    Draft.checkSeparator (.str separator) = .ok separator ↔ separator.chars.all isSeparatorChar = true := by
  simp only [Draft.checkSeparator]
  split
  · exact iff_of_true rfl ‹_›
  · exact iff_of_false (fun h => nomatch h) ‹_›

/-! ## The edits of a text that was read -/

section Parsed

variable {file : Text} {source : Bytes} {tree : Node} {ws : List Word} {tag : String} {separator : Text} {sep : Bytes}

theorem Parsed.inOrder_accepted (h : Parsed file source tree ws) :
    Edit.InOrder source.length ((accepted source ws).map (Word.edit tag separator)) := by
  refine h.inOrder (List.filter_sublist.trans List.filter_sublist) ?_
  intro w hw
  exact role_of_isAttempted (List.mem_filter.mp (List.mem_of_mem_filter hw)).2

theorem Parsed.named_accepted (h : Parsed file source tree ws) {w : Word} (hw : w ∈ accepted source ws) :
    w.Named ws ∧ w.holds source = true := by
  obtain ⟨hatt, hholds⟩ := List.mem_filter.mp hw
  obtain ⟨hmem, hrole⟩ := List.mem_filter.mp hatt
  exact ⟨h.named hmem (role_of_isAttempted hrole), hholds⟩

/-- The queued edits lie in the buffer and cover something. -/
theorem Parsed.edits_inside (h : Parsed file source tree ws) :
    ∀ e ∈ (Renamer.afterBoth source tag separator tree).edits, 0 ≤ e.start ∧ e.start < e.stop ∧ e.stop ≤ source.length := by
  intro e he
  exact h.inOrder_accepted.inside e (h.edits_perm.subset he)

/-- No two queued edits overlap, in whatever order they were queued. -/
theorem Parsed.edits_apart (h : Parsed file source tree ws) :
    (Renamer.afterBoth source tag separator tree).edits.Pairwise fun a b => a.stop ≤ b.start ∨ b.stop ≤ a.start := by
  have hsymm : ∀ {a b : Edit}, (a.stop ≤ b.start ∨ b.stop ≤ a.start) → (b.stop ≤ a.start ∨ a.stop ≤ b.start) := Or.symm
  refine (h.edits_perm.pairwise_iff hsymm).mpr ?_
  exact h.inOrder_accepted.apart.imp Or.inl

/-- An accepted word is edited by putting the mark in front of what stands there. -/
theorem Parsed.bytes_edit (h : Parsed file source tree ws) (hs : separator.encode = .ok sep) {e : Edit}
    (he : e ∈ (accepted source ws).map (Word.edit tag separator)) :
    e.bytes = Utf8.encode tag ++ sep ++ (source.drop e.start.toNat).take (e.stop.toNat - e.start.toNat) := by
  obtain ⟨w, hw, rfl⟩ := List.mem_map.mp he
  have hholds := (h.named_accepted hw).2
  rw [Word.holds, beq_iff_eq] at hholds
  have hwidth : (w.edit tag separator).stop.toNat - (w.edit tag separator).start.toNat = w.text.length :=
    Nat.add_sub_cancel_left ..
  rw [Word.bytes_edit hs, hwidth, ← hholds]
  rfl

/-- An edit starts at an ASCII byte. -/
theorem Parsed.isAscii_start (h : Parsed file source tree ws) {e : Edit}
    (he : e ∈ (accepted source ws).map (Word.edit tag separator)) {b : UInt8} (hb : source[e.start.toNat]? = some b) :
    b.toNat < 0x80 := by
  obtain ⟨w, hw, rfl⟩ := List.mem_map.mp he
  obtain ⟨hn, hholds⟩ := h.named_accepted hw
  obtain ⟨c, cs, hc⟩ := List.exists_cons_of_ne_nil hn.ne_nil
  have hascii : isAscii c = true := List.all_eq_true.mp hn.isAscii c (by rw [hc]; exact List.mem_cons_self)
  rw [Word.holds, beq_iff_eq, hc, encodeChars_cons, utf8EncodeChar_of_isAscii hascii] at hholds
  have hfirst := congrArg (·[0]?) hholds
  simp only [List.length_cons, List.getElem?_take_of_lt (Nat.succ_pos _), List.getElem?_drop, Nat.add_zero] at hfirst
  have hbyte : b = UInt8.ofNat c.toNat := Option.some.inj (hb.symm.trans hfirst)
  have hlt : c.toNat < 0x80 := of_decide_eq_true hascii
  rw [hbyte, Utf8.toNat_ofNat_of_lt (by omega)]
  exact hlt

/-- The edits are counted by the two counters. -/
theorem length_accepted (source : Bytes) (ws : List Word) :
    (accepted source ws).length =
      (accepted source ws).countP (fun w => w.role = some .bind) +
        (accepted source ws).countP (fun w => w.role = some .reference) := by
  have hrole : ∀ w ∈ accepted source ws, w.role ≠ none := by
    intro w hw
    exact role_of_isAttempted (List.mem_filter.mp (List.mem_of_mem_filter hw)).2
  generalize accepted source ws = us at hrole
  induction us with
  | nil => rfl
  | cons w us ih =>
    have hih := ih fun v hv => hrole v (List.mem_cons_of_mem w hv)
    rw [List.length_cons, List.countP_cons, List.countP_cons, hih]
    rcases hw : w.role with _ | _ | _
    · exact absurd hw (hrole w List.mem_cons_self)
    · simp only [decide_true, if_true, reduceCtorEq, decide_false, Bool.false_eq_true, if_false, Option.some.injEq]
      omega
    · simp only [decide_true, if_true, reduceCtorEq, decide_false, Bool.false_eq_true, if_false, Option.some.injEq]
      omega

/-- The offsets at which the edits start, in the order in which they were queued. -/
def Renamer.startOffsets (r : Renamer) : List Nat := r.edits.map (·.start.toNat)

theorem Parsed.startOffsets_perm (h : Parsed file source tree ws) :
    (Renamer.afterBoth source tag separator tree).startOffsets.Perm
      (((accepted source ws).map (Word.edit tag separator)).map (·.start.toNat)) :=
  h.edits_perm.map _

theorem Parsed.nodup_startOffsets (h : Parsed file source tree ws) :
    (Renamer.afterBoth source tag separator tree).startOffsets.Nodup := by
  refine h.startOffsets_perm.nodup_iff.mpr ?_
  have ho : Edit.InOrder source.length ((accepted source ws).map (Word.edit tag separator)) := h.inOrder_accepted
  refine List.pairwise_map.mpr (ho.apart.imp_of_mem ?_)
  intro a b ha hb hab
  have h1 := ho.inside a ha
  have h2 := ho.inside b hb
  omega

/-- The code is the source with the mark at the start of each edit. -/
theorem Parsed.weave_eq_insertMarks (h : Parsed file source tree ws) (hs : separator.encode = .ok sep) :
    Edit.weave source Edit.bytes 0 ((accepted source ws).map (Word.edit tag separator)) =
      insertMarks (Utf8.encode tag ++ sep) (Renamer.afterBoth source tag separator tree).startOffsets 0 source := by
  have ho : Edit.InOrder source.length ((accepted source ws).map (Word.edit tag separator)) := h.inOrder_accepted
  rw [Edit.weave_eq_insertMarks ho (fun e he => (ho.inside e he).1) fun e he => h.bytes_edit hs he, List.drop_zero]
  refine insertMarks_congr ?_ source
  intro s _
  exact h.startOffsets_perm.mem_iff.symm

/-- Each accepted word makes the source longer by the mark. -/
theorem Parsed.length_marked (h : Parsed file source tree ws) (mark : Bytes) :
    (insertMarks mark (Renamer.afterBoth source tag separator tree).startOffsets 0 source).length =
      source.length + (accepted source ws).length * mark.length := by
  have hoffsets : ∀ s ∈ (Renamer.afterBoth source tag separator tree).startOffsets, 0 ≤ s ∧ s < 0 + source.length := by
    intro s hs
    obtain ⟨e, he, rfl⟩ := List.mem_map.mp hs
    have := h.edits_inside e he
    omega
  have hcount : (Renamer.afterBoth source tag separator tree).startOffsets.length = (accepted source ws).length := by
    rw [h.startOffsets_perm.length_eq, List.length_map, List.length_map]
  rw [length_insertMarks h.nodup_startOffsets hoffsets, hcount]

/-- The marks stand between characters, so that a text is left. -/
theorem Parsed.exists_marked_eq (h : Parsed file source tree ws) (seps : List Char) :
    ∃ text, insertMarks (Utf8.encode tag ++ encodeChars seps)
      (Renamer.afterBoth source tag separator tree).startOffsets 0 source = encodeChars text := by
  have hmark : Utf8.encode tag ++ encodeChars seps = encodeChars (tag.toList ++ seps) := (encodeChars_append _ _).symm
  rw [hmark, h.encoded]
  refine exists_insertMarks_eq (texts ws) ?_
  intro i b hi hb
  rw [← h.encoded] at hi hb
  obtain ⟨e, he, hstart⟩ := List.mem_map.mp (h.startOffsets_perm.subset hi)
  rw [Nat.zero_add] at hstart
  exact h.isAscii_start he (hstart ▸ hb)

end Parsed

/-- Renaming a text that was read goes through and only inserts the mark: the edits are apart and
    inside the buffer, and the code is a text again. -/
theorem rename_inserts {file : Text} {source : Bytes} {tree : Node} {identity separator : Text} {tag : String}
    (hp : parse file source = .ok tree) (ht : fileTag identity = .ok tag)
    (hs : Draft.checkSeparator (.str separator) = .ok separator) :
    ∃ initial afterBinds afterBoth renamed mark text,
      Renamer.start source identity separator = .ok initial ∧
      initial.collectBinds tree = (afterBinds, none) ∧
      afterBinds.collectReferences tree = (afterBoth, none) ∧
      (∀ e ∈ afterBoth.edits, 0 ≤ e.start ∧ e.start < e.stop ∧ e.stop ≤ source.length) ∧
      afterBoth.edits.Pairwise (fun a b => a.stop ≤ b.start ∨ b.stop ≤ a.start) ∧
      afterBoth.apply = .ok renamed.code ∧
      renameLocals tree source identity separator = (afterBoth.skipped, .ok renamed) ∧
      Text.encode (tag ++ separator) = .ok mark ∧
      renamed.code = insertMarks mark afterBoth.startOffsets 0 source ∧
      removeMarks mark.length afterBoth.startOffsets 0 renamed.code = source ∧
      renamed.code.length = source.length + (renamed.bindCount + renamed.referenceCount) * (9 + separator.length) ∧
      Utf8.decode renamed.code = .ok text := by
  obtain ⟨cs, _, _, h⟩ := exists_parsed hp
  generalize words file cs = ws at h
  obtain ⟨seps, rfl, hseps⟩ := exists_separator (checkSeparator_eq_ok_iff.mp hs)
  have hsep : (Text.ofChars seps).encode = .ok (encodeChars seps) := Text.encode_ofChars seps
  have happly : (Renamer.afterBoth source tag (.ofChars seps) tree).apply = _ := h.apply_eq hsep
  rw [h.weave_eq_insertMarks hsep] at happly
  obtain ⟨text, htext⟩ : ∃ text, insertMarks (Utf8.encode tag ++ encodeChars seps)
      (Renamer.afterBoth source tag (.ofChars seps) tree).startOffsets 0 source = encodeChars text := h.exists_marked_eq seps
  obtain ⟨names, skipped, heq, _⟩ := h.renameLocals_eq ht hsep
  rw [h.renameLocals_eq_afterBoth ht, Prod.mk.injEq] at heq
  obtain ⟨rfl, hresult⟩ := heq
  rw [h.weave_eq_insertMarks hsep] at hresult
  refine ⟨_, _, _, _, _, text, Renamer.start_eq ht, h.collectBinds_eq, h.collectReferences_eq, h.edits_inside, h.edits_apart,
    happly, (h.renameLocals_eq_afterBoth ht).trans (congrArg _ hresult), Text.encode_append (Text.encode_ofString tag) hsep,
    rfl, removeMarks_insertMarks source, ?_, ?_⟩
  · rw [h.length_marked, length_accepted, length_mark ht hseps]
  · rw [htext]
    exact Utf8.decode_encodeChars text

/-- A reference that is looked for one byte before it stands. -/
theorem rename_inserts_drifted :
    ∃ tree, parse "" (Utf8.encode "local x=1;[\"é\",x]") = .ok tree ∧
      ∃ renamed skipped,
        renameLocals tree (Utf8.encode "local x=1;[\"é\",x]") "a" "_" = (skipped, .ok renamed) ∧
        renamed.code.length =
          (Utf8.encode "local x=1;[\"é\",x]").length + (renamed.bindCount + renamed.referenceCount) * 10 := by
  obtain ⟨tree, hp⟩ : ∃ tree, parse "" (Utf8.encode "local x=1;[\"é\",x]") = .ok tree :=
    exists_tree (by decide +kernel)
  obtain ⟨_, _, afterBoth, renamed, _, _, _, _, _, _, _, _, heq, _, _, _, hlen, _⟩ :=
    rename_inserts hp (show fileTag "a" = .ok "_e40c292c" by decide +kernel)
      (checkSeparator_eq_ok_iff.mpr (show (Text.chars "_").all isSeparatorChar = true by decide +kernel))
  exact ⟨tree, hp, renamed, afterBoth.skipped, heq, hlen⟩

end JsonnetLocals
