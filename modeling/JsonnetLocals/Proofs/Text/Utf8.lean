/-
  JsonnetLocals.Proofs.Text.Utf8 — reading and writing UTF-8 are inverse.

  `scan_encodeChar` reads back the first character that was written, `encodeChar_of_scan` says that
  a character is read only from its own bytes. From these, one character at a time:
  - every text is read back from its bytes (`decode_encodeChars`),
  - a byte sequence that can be read is the bytes of what was read (`eq_encodeChars_of_decode`).
-/

import JsonnetLocals.Text.Encoding
import Mathlib.Tactic.Common

namespace JsonnetLocals.Utf8

/-! ## The bytes after the first -/

theorem toNat_ofNat_of_valid {n : Nat} (h : n.isValidChar) : (Char.ofNat n).toNat = n := by
  rw [Char.ofNat, dif_pos h]
  rfl

theorem toNat_ofNat_of_lt {n : Nat} (h : n < 256) : (UInt8.ofNat n).toNat = n := by
  simp [Nat.mod_eq_of_lt h]

/-- The value that the bytes after the first add to the bits of the first. -/
def tailValue (value : Nat) (ds : Bytes) : Nat := ds.foldl (fun v d => v * 64 + (d.toNat - 0x80)) value

theorem tailValue_cons (value : Nat) (d : UInt8) (ds : Bytes) :
    tailValue value (d :: ds) = tailValue (value * 64 + (d.toNat - 0x80)) ds := by
  simp only [tailValue, List.foldl_cons]

def inRange (r : UInt8 × UInt8) (d : UInt8) : Prop := r.1.toNat ≤ d.toNat ∧ d.toNat ≤ r.2.toNat

/-- The bytes after the first are read as a character exactly when each lies in its range. -/
theorem scanTail_eq_scalar_iff (value width : Nat) (ranges : List (UInt8 × UInt8)) (bs : Bytes) (c : Char) (w : Nat) :
    scanTail value width ranges bs = .scalar c w ↔
      ∃ ds tail, bs = ds ++ tail ∧ w = width + ds.length ∧ List.Forall₂ inRange ranges ds ∧
        c = Char.ofNat (tailValue value ds) := by
  induction ranges generalizing value width bs with
  | nil =>
    constructor
    · intro h
      rw [scanTail, Piece.scalar.injEq] at h
      exact ⟨[], bs, rfl, h.2.symm, .nil, h.1.symm⟩
    · rintro ⟨ds, tail, rfl, rfl, hf, rfl⟩
      cases hf
      rfl
  | cons r ranges ih =>
    obtain ⟨lo, hi⟩ := r
    constructor
    · intro h
      match bs with
      | [] => simp [scanTail] at h
      | b :: rest =>
        rw [scanTail] at h
        split at h
        · rename_i hb
          obtain ⟨ds, tail, rfl, rfl, hf, rfl⟩ := (ih _ _ _).mp h
          refine ⟨b :: ds, tail, rfl, by rw [List.length_cons]; omega, .cons ?_ hf, by rw [tailValue_cons]⟩
          simpa [inRange, UInt8.le_iff_toNat_le] using hb
        · cases h
    · rintro ⟨ds, tail, rfl, rfl, hf, rfl⟩
      cases hf with
      | cons hd hf =>
        rename_i d ds
        rw [List.cons_append, scanTail, if_pos (by simpa [inRange, UInt8.le_iff_toNat_le] using hd)]
        exact (ih _ _ _).mpr ⟨ds, tail, rfl, by rw [List.length_cons]; omega, hf, by rw [tailValue_cons]⟩

/-! ## One character -/

/-- The range of the second byte after a first byte with the bits `value`, when two follow. -/
def secondOfThree (value : Nat) : UInt8 × UInt8 :=
  if value = 0 then (0xa0, 0xbf) else if value = 0xd then (0x80, 0x9f) else (0x80, 0xbf)

/-- The same when three follow. -/
def secondOfFour (value : Nat) : UInt8 × UInt8 :=
  if value = 0 then (0x90, 0xbf) else if value = 4 then (0x80, 0x8f) else (0x80, 0xbf)

/-- The first byte of a character says how many follow and in which ranges they lie. -/
theorem leadOf_eq_some_iff (b : UInt8) (value : Nat) (ranges : List (UInt8 × UInt8)) :
    leadOf b = some (value, ranges) ↔
      (b.toNat = value + 0xc0 ∧ 2 ≤ value ∧ value < 0x20 ∧ ranges = [(0x80, 0xbf)]) ∨
      (b.toNat = value + 0xe0 ∧ value < 0x10 ∧ ranges = [secondOfThree value, (0x80, 0xbf)]) ∨
      (b.toNat = value + 0xf0 ∧ value < 5 ∧ ranges = [secondOfFour value, (0x80, 0xbf), (0x80, 0xbf)]) := by
  have lt (n : UInt8) : b < n ↔ b.toNat < n.toNat := UInt8.lt_iff_toNat_lt
  have e (n : UInt8) : b = n ↔ b.toNat = n.toNat := UInt8.toNat_inj.symm
  simp only [leadOf, secondOfThree, secondOfFour, lt, e, UInt8.reduceToNat]
  generalize b.toNat = n
  constructor
  · intro h
    split_ifs at h <;> simp only [Option.some.injEq, Prod.mk.injEq] at h <;> obtain ⟨rfl, rfl⟩ := h
    · exact Or.inl ⟨by omega, by omega, by omega, rfl⟩
    all_goals try subst n
    · exact Or.inr (Or.inl ⟨by omega, by omega, rfl⟩)
    · exact Or.inr (Or.inl ⟨by omega, by omega, rfl⟩)
    · exact Or.inr (Or.inl ⟨by omega, by omega, by rw [if_neg (by omega), if_neg (by omega)]⟩)
    · exact Or.inr (Or.inr ⟨by omega, by omega, rfl⟩)
    · exact Or.inr (Or.inr ⟨by omega, by omega, rfl⟩)
    · exact Or.inr (Or.inr ⟨by omega, by omega, by rw [if_neg (by omega), if_neg (by omega)]⟩)
  · rintro (⟨rfl, h1, h2, rfl⟩ | ⟨rfl, h1, rfl⟩ | ⟨rfl, h1, rfl⟩)
    · rw [if_neg (by omega), if_pos (by omega), Nat.add_sub_cancel]
    · rw [if_neg (by omega), if_neg (by omega), if_pos (by omega), Nat.add_sub_cancel]
      simp only [Nat.add_eq_right, Nat.reduceEqDiff]
    · rw [if_neg (by omega), if_neg (by omega), if_neg (by omega), if_pos (by omega), Nat.add_sub_cancel]
      simp only [Nat.add_eq_right, Nat.reduceEqDiff]

/-- A character is read from one byte below 0x80, or from a first byte and those it announces. -/
theorem scan_eq_scalar_iff (b : UInt8) (rest : Bytes) (c : Char) (w : Nat) :
    scan b rest = .scalar c w ↔
      (b.toNat < 0x80 ∧ c = Char.ofNat b.toNat ∧ w = 1) ∨
        (0x80 ≤ b.toNat ∧ ∃ value ranges ds tail, leadOf b = some (value, ranges) ∧ List.Forall₂ inRange ranges ds ∧
          rest = ds ++ tail ∧ w = 1 + ds.length ∧ c = Char.ofNat (tailValue value ds)) := by
  have hb : b < 0x80 ↔ b.toNat < 0x80 := UInt8.lt_iff_toNat_lt
  simp only [scan, hb]
  by_cases h : b.toNat < 0x80
  · rw [if_pos h]
    simp [h, Nat.not_le.mpr h, eq_comm]
  · rw [if_neg h]
    cases hl : leadOf b with
    | none => simp [h]
    | some p =>
      obtain ⟨value, ranges⟩ := p
      simp only [scanTail_eq_scalar_iff, h, false_and, false_or, Nat.not_lt.mp h, true_and, Option.some.injEq,
        Prod.mk.injEq]
      constructor
      · rintro ⟨ds, tail, h1, h2, h3, h4⟩
        exact ⟨value, ranges, ds, tail, ⟨rfl, rfl⟩, h3, h1, h2, h4⟩
      · rintro ⟨_, _, ds, tail, ⟨rfl, rfl⟩, h3, h1, h2, h4⟩
        exact ⟨ds, tail, h1, h2, h3, h4⟩

/-- A character that was written is read back, whatever follows. -/
theorem scan_encodeChar (c : Char) (rest : Bytes) :
    ∃ b ds, String.utf8EncodeChar c = b :: ds ∧ scan b (ds ++ rest) = .scalar c (ds.length + 1) := by
  have hv : c.toNat < 0xd800 ∨ 0xdfff < c.toNat ∧ c.toNat < 0x110000 := c.valid
  have hc : Char.ofNat c.toNat = c := Char.ofNat_toNat c
  have hn : c.val.toNat = c.toNat := rfl
  simp only [String.utf8EncodeChar, hn, scan_eq_scalar_iff, leadOf_eq_some_iff]
  generalize c.toNat = n at *
  subst hc
  have last : (UInt8.ofNat (n % 0x40 + 0x80)).toNat = n % 64 + 0x80 := toNat_ofNat_of_lt (by omega)
  have mid : (UInt8.ofNat (n / 64 % 0x40 + 0x80)).toNat = n / 64 % 64 + 0x80 := toNat_ofNat_of_lt (by omega)
  have high : (UInt8.ofNat (n / 4096 % 0x40 + 0x80)).toNat = n / 4096 % 64 + 0x80 := toNat_ofNat_of_lt (by omega)
  split_ifs with h1 h2 h3
  · refine ⟨_, [], rfl, Or.inl ?_⟩
    rw [toNat_ofNat_of_lt (by omega)]
    exact ⟨by omega, rfl, rfl⟩
  · have e : (UInt8.ofNat (n / 64 % 0x20 + 0xc0)).toNat = n / 64 + 0xc0 := by
      rw [toNat_ofNat_of_lt (by omega)]; omega
    refine ⟨_, [_], rfl, Or.inr ⟨by omega, n / 64, _, _, rest, Or.inl ⟨e, by omega, by omega, rfl⟩, ?_, rfl, rfl, ?_⟩⟩
    · simp [inRange]; omega
    · simp only [tailValue, List.foldl, last, Nat.add_sub_cancel]
      congr 1
      omega
  · have e : (UInt8.ofNat (n / 4096 % 0x10 + 0xe0)).toNat = n / 4096 + 0xe0 := by
      rw [toNat_ofNat_of_lt (by omega)]; omega
    refine ⟨_, [_, _], rfl, Or.inr ⟨by omega, n / 4096, _, _, rest, Or.inr (Or.inl ⟨e, by omega, rfl⟩), ?_, rfl, rfl, ?_⟩⟩
    · refine .cons ?_ (.cons ?_ .nil)
      · simp only [inRange, secondOfThree, mid]
        split_ifs <;> simp <;> omega
      · simp [inRange]; omega
    · simp only [tailValue, List.foldl, last, mid, Nat.add_sub_cancel]
      congr 1
      omega
  · have e : (UInt8.ofNat (n / 262144 % 0x08 + 0xf0)).toNat = n / 262144 + 0xf0 := by
      rw [toNat_ofNat_of_lt (by omega)]; omega
    refine ⟨_, [_, _, _], rfl,
      Or.inr ⟨by omega, n / 262144, _, _, rest, Or.inr (Or.inr ⟨e, by omega, rfl⟩), ?_, rfl, rfl, ?_⟩⟩
    · refine .cons ?_ (.cons ?_ (.cons ?_ .nil))
      · simp only [inRange, secondOfFour, high]
        split_ifs <;> simp <;> omega
      · simp [inRange]; omega
      · simp [inRange]; omega
    · simp only [tailValue, List.foldl, last, mid, high, Nat.add_sub_cancel]
      congr 1
      omega

/-- A character is read only from its own bytes. -/
theorem encodeChar_of_scan {b : UInt8} {rest : Bytes} {c : Char} {w : Nat} (h : scan b rest = .scalar c w) :
    String.utf8EncodeChar c ++ rest.drop (w - 1) = b :: rest := by
  have byte (d : UInt8) (n : Nat) (e : n = d.toNat) : UInt8.ofNat n = d := by rw [e, UInt8.ofNat_toNat]
  have hlt := b.toNat_lt
  rcases (scan_eq_scalar_iff _ _ _ _).mp h with ⟨h1, rfl, rfl⟩ | ⟨h1, value, ranges, ds, tail, hl, hf, rfl, rfl, rfl⟩
  · have hv : (Char.ofNat b.toNat).val.toNat = b.toNat := toNat_ofNat_of_valid (Or.inl (by omega))
    simp only [String.utf8EncodeChar, hv]
    rw [if_pos (by omega), byte b _ rfl]
    rfl
  rw [Nat.add_sub_cancel_left, List.drop_left, ← List.cons_append]
  congr 1
  rcases (leadOf_eq_some_iff _ _ _).mp hl with ⟨hb, h2, h3, rfl⟩ | ⟨hb, h2, rfl⟩ | ⟨hb, h2, rfl⟩
  · obtain _ | ⟨⟨l1, u1⟩, _ | _⟩ := hf
    rename_i d
    replace l1 : 0x80 ≤ d.toNat := l1
    replace u1 : d.toNat ≤ 0xbf := u1
    simp only [tailValue, List.foldl]
    have hv : (Char.ofNat (value * 64 + (d.toNat - 0x80))).val.toNat = value * 64 + (d.toNat - 0x80) :=
      toNat_ofNat_of_valid (Or.inl (by omega))
    simp only [String.utf8EncodeChar, hv]
    rw [if_neg (by omega), if_pos (by omega), byte b _ (by omega), byte d _ (by omega)]
  · obtain _ | ⟨⟨l1, u1⟩, _ | ⟨⟨l2, u2⟩, _ | _⟩⟩ := hf
    rename_i d d'
    replace l2 : 0x80 ≤ d'.toNat := l2
    replace u2 : d'.toNat ≤ 0xbf := u2
    have hd : 0x80 ≤ d.toNat ∧ d.toNat ≤ 0xbf ∧ (value = 0 → 0xa0 ≤ d.toNat) ∧ (value = 0xd → d.toNat ≤ 0x9f) := by
      simp only [secondOfThree] at l1 u1
      split_ifs at l1 u1 <;> simp at l1 u1 <;> omega
    simp only [tailValue, List.foldl]
    have hv : (Char.ofNat ((value * 64 + (d.toNat - 0x80)) * 64 + (d'.toNat - 0x80))).val.toNat =
        (value * 64 + (d.toNat - 0x80)) * 64 + (d'.toNat - 0x80) :=
      toNat_ofNat_of_valid (show _ < 0xd800 ∨ 0xdfff < _ ∧ _ < 0x110000 by omega)
    simp only [String.utf8EncodeChar, hv]
    rw [if_neg (by omega), if_neg (by omega), if_pos (by omega), byte b _ (by omega), byte d _ (by omega),
      byte d' _ (by omega)]
  · obtain _ | ⟨⟨l1, u1⟩, _ | ⟨⟨l2, u2⟩, _ | ⟨⟨l3, u3⟩, _ | _⟩⟩⟩ := hf
    rename_i d d' d''
    replace l2 : 0x80 ≤ d'.toNat := l2
    replace u2 : d'.toNat ≤ 0xbf := u2
    replace l3 : 0x80 ≤ d''.toNat := l3
    replace u3 : d''.toNat ≤ 0xbf := u3
    have hd : 0x80 ≤ d.toNat ∧ d.toNat ≤ 0xbf ∧ (value = 0 → 0x90 ≤ d.toNat) ∧ (value = 4 → d.toNat ≤ 0x8f) := by
      simp only [secondOfFour] at l1 u1
      split_ifs at l1 u1 <;> simp at l1 u1 <;> omega
    simp only [tailValue, List.foldl]
    have hv : (Char.ofNat (((value * 64 + (d.toNat - 0x80)) * 64 + (d'.toNat - 0x80)) * 64 + (d''.toNat - 0x80))).val.toNat =
        ((value * 64 + (d.toNat - 0x80)) * 64 + (d'.toNat - 0x80)) * 64 + (d''.toNat - 0x80) :=
      toNat_ofNat_of_valid (show _ < 0xd800 ∨ 0xdfff < _ ∧ _ < 0x110000 by omega)
    simp only [String.utf8EncodeChar, hv]
    rw [if_neg (by omega), if_neg (by omega), if_neg (by omega), byte b _ (by omega), byte d _ (by omega),
      byte d' _ (by omega), byte d'' _ (by omega)]

/-! ## Whole texts -/

theorem encodeChars_cons (c : Char) (cs : List Char) :
    encodeChars (c :: cs) = String.utf8EncodeChar c ++ encodeChars cs := List.flatMap_cons

theorem encodeChars_append (cs ds : List Char) : encodeChars (cs ++ ds) = encodeChars cs ++ encodeChars ds :=
  List.flatMap_append

theorem decodeFrom_encodeChars (cs : List Char) (start : Nat) (read : List Char) :
    decodeFrom start read (encodeChars cs) = .ok (read.reverse ++ cs) := by
  induction cs generalizing start read with
  | nil => rw [encodeChars, List.flatMap_nil, decodeFrom, List.append_nil]
  | cons c cs ih =>
    obtain ⟨b, ds, he, hs⟩ := scan_encodeChar c (encodeChars cs)
    rw [encodeChars_cons, he, List.cons_append, decodeFrom, hs]
    simp only [Nat.add_sub_cancel, List.drop_left]
    rw [ih, List.reverse_cons, List.append_assoc]
    rfl

/-- A text is read back from its bytes. -/
theorem decode_encodeChars (cs : List Char) : decode (encodeChars cs) = .ok cs := decodeFrom_encodeChars cs 0 []

theorem encodeChars_injective {cs ds : List Char} (h : encodeChars cs = encodeChars ds) : cs = ds := by
  have hdecode := decode_encodeChars cs
  rw [h, decode_encodeChars] at hdecode
  exact (Except.ok.inj hdecode).symm

theorem encodeChars_of_decodeFrom (bs : Bytes) (start : Nat) (read cs : List Char)
    (h : decodeFrom start read bs = .ok cs) : ∃ ds, cs = read.reverse ++ ds ∧ bs = encodeChars ds := by
  fun_induction decodeFrom start read bs with
  | case1 start read => exact ⟨[], by simpa using h.symm, rfl⟩
  | case2 start read b rest c w hs ih =>
    obtain ⟨ds, rfl, hd⟩ := ih h
    refine ⟨c :: ds, by simp, ?_⟩
    rw [encodeChars_cons, ← hd, encodeChar_of_scan hs]
  | case3 => cases h

/-- A byte sequence that can be read is the bytes of its text. -/
theorem eq_encodeChars_of_decode {bs : Bytes} {cs : List Char} (h : decode bs = .ok cs) : bs = encodeChars cs := by
  obtain ⟨ds, rfl, hd⟩ := encodeChars_of_decodeFrom bs 0 [] cs h
  exact hd

end JsonnetLocals.Utf8
