/-
  JsonnetLocals.Proofs.Text.FileName — the bytes of file names, and the names that files show.

  A name is written as bytes and listed as those bytes read. Reading loses nothing
  (`Text.fileBytes_decodeName`), so a file shows a name with the bytes of the one it was made under
  (`Text.fileBytes_storedName`), and two names that differ by a string in their middle are listed apart
  (`Text.storedName_cancel`).
-/

import JsonnetLocals.Clock.Moment
import JsonnetLocals.Files.Path
import JsonnetLocals.Proofs.Text.Encoding

namespace JsonnetLocals

namespace Utf8

/-- A malformed part behind its first byte holds no ASCII. -/
theorem scanTail_malformed {value width : Nat} {ranges : List (UInt8 × UInt8)} {bs : Bytes} {flaw : Flaw} {w : Nat}
    (hr : ∀ r ∈ ranges, 0x80 ≤ r.1.toNat) (h : scanTail value width ranges bs = .malformed flaw w) :
    ∃ ds tail, bs = ds ++ tail ∧ w = width + ds.length ∧ ∀ d ∈ ds, 0x80 ≤ d.toNat := by
  induction ranges generalizing value width bs with
  | nil => cases h
  | cons r ranges ih =>
    obtain ⟨lo, hi⟩ := r
    rw [List.forall_mem_cons] at hr
    cases bs with
    | nil =>
      cases h
      exact ⟨[], [], rfl, rfl, List.forall_mem_nil _⟩
    | cons b rest =>
      rw [scanTail] at h
      split at h
      · rename_i hb
        obtain ⟨ds, tail, rfl, rfl, hds⟩ := ih hr.2 h
        have hlo : lo.toNat ≤ b.toNat := UInt8.le_iff_toNat_le.mp (by simpa using (Bool.and_eq_true_iff.mp hb).1)
        refine ⟨b :: ds, tail, rfl, by rw [List.length_cons]; omega, ?_⟩
        intro d hd
        rcases List.mem_cons.mp hd with rfl | hd
        · exact Nat.le_trans hr.1 hlo
        · exact hds d hd
      · cases h
        exact ⟨[], b :: rest, rfl, rfl, List.forall_mem_nil _⟩

/-- A malformed part holds no ASCII. -/
theorem scan_malformed {b : UInt8} {rest : Bytes} {flaw : Flaw} {w : Nat} (h : scan b rest = .malformed flaw w) :
    ∃ ds tail, rest = ds ++ tail ∧ w = ds.length + 1 ∧ ∀ d ∈ b :: ds, 0x80 ≤ d.toNat := by
  have hlt : b < 0x80 ↔ b.toNat < 0x80 := UInt8.lt_iff_toNat_lt
  unfold scan at h
  split at h
  · cases h
  · rename_i hb
    rw [hlt, Nat.not_lt] at hb
    split at h
    · cases h
      exact ⟨[], rest, rfl, rfl, by simpa using hb⟩
    · rename_i value ranges hl
      have hr : ∀ r ∈ ranges, 0x80 ≤ r.1.toNat := by
        rcases (leadOf_eq_some_iff _ _ _).mp hl with ⟨-, -, -, rfl⟩ | ⟨-, -, rfl⟩ | ⟨-, -, rfl⟩
        · simp
        · unfold secondOfThree
          split_ifs <;> simp
        · unfold secondOfFour
          split_ifs <;> simp
      obtain ⟨ds, tail, rfl, rfl, hds⟩ := scanTail_malformed hr h
      exact ⟨ds, tail, rfl, Nat.add_comm .., List.forall_mem_cons.mpr ⟨hb, hds⟩⟩

end Utf8

namespace Text

/-! ## Bytes -/

def fileBytes (t : Text) : Option Bytes := (t.codes.mapM nameBytes?).map List.flatten

theorem encodeName_eq_ok_iff {t : Text} {bs : Bytes} : t.encodeName = .ok bs ↔ t.fileBytes = some bs := by
  unfold encodeName fileBytes
  cases t.codes.mapM nameBytes? <;> simp

theorem fileBytes_append (a b : Text) :
    (a ++ b).fileBytes = a.fileBytes.bind fun x => b.fileBytes.map fun y => x ++ y := by
  unfold fileBytes
  rw [codes_append, List.mapM_append]
  cases a.codes.mapM nameBytes? with
  | none => rfl
  | some xs => cases b.codes.mapM nameBytes? <;> simp

theorem fileBytes_cons (n : Nat) (codes : List Nat) :
    fileBytes ⟨n :: codes⟩ = (nameBytes? n).bind fun x => (fileBytes ⟨codes⟩).map fun y => x ++ y := by
  unfold fileBytes
  rw [List.mapM_cons]
  cases nameBytes? n with
  | none => rfl
  | some x => cases codes.mapM nameBytes? <;> simp

theorem isByte_toNat (c : Char) : isByte c.toNat = false := by
  have hv : c.toNat < 0xd800 ∨ 0xdfff < c.toNat ∧ c.toNat < 0x110000 := c.valid
  simp only [isByte, Bool.and_eq_false_iff, decide_eq_false_iff_not]
  omega

theorem nameBytes?_toNat (c : Char) : nameBytes? c.toNat = some (String.utf8EncodeChar c) := by
  rw [nameBytes?, isByte_toNat, char?_toNat]
  rfl

/-- A byte that is no part of a character is written as itself. -/
theorem nameBytes?_byte {b : UInt8} (h : 0x80 ≤ b.toNat) : nameBytes? (b.toNat + 0xdc00) = some [b] := by
  have hlt := b.toNat_lt
  have hb : isByte (b.toNat + 0xdc00) = true := by
    simp only [isByte, Bool.and_eq_true, decide_eq_true_eq]
    omega
  rw [nameBytes?, if_pos hb, Nat.add_sub_cancel, Nat.toUInt8_eq, UInt8.ofNat_toNat]

theorem fileBytes_ofString (s : String) : (ofString s).fileBytes = some (Utf8.encode s) := by
  unfold ofString ofChars Utf8.encode
  induction s.toList with
  | nil => rfl
  | cons c cs ih => rw [List.map_cons, fileBytes_cons, nameBytes?_toNat, ih, Utf8.encodeChars_cons]; rfl

theorem fileBytes_bytes {bs : Bytes} (h : ∀ b ∈ bs, 0x80 ≤ b.toNat) :
    fileBytes ⟨bs.map fun b => b.toNat + 0xdc00⟩ = some bs := by
  induction bs with
  | nil => rfl
  | cons b bs ih =>
    rw [List.forall_mem_cons] at h
    rw [List.map_cons, fileBytes_cons, nameBytes?_byte h.1, ih h.2]
    rfl

/-! ## Listed names -/

theorem fileBytes_decodeNameFrom (bs : Bytes) (read : List Nat) (done : Bytes)
    (h : fileBytes ⟨read.reverse⟩ = some done) : fileBytes ⟨decodeNameFrom read bs⟩ = some (done ++ bs) := by
  have hjoin (xs ys : List Nat) : Text.mk (xs ++ ys) = Text.mk xs ++ Text.mk ys := rfl
  fun_induction decodeNameFrom read bs generalizing done with
  | case1 read => rw [h, List.append_nil]
  | case2 read b rest c w hs ih =>
    have hread : fileBytes ⟨(c.toNat :: read).reverse⟩ = some (done ++ String.utf8EncodeChar c) := by
      rw [List.reverse_cons, hjoin, fileBytes_append, h, fileBytes_cons, nameBytes?_toNat]
      simp [fileBytes]
    rw [ih _ hread, List.append_assoc, Utf8.encodeChar_of_scan hs]
  | case3 read b rest flaw w hs ih =>
    obtain ⟨ds, tail, rfl, rfl, hds⟩ := Utf8.scan_malformed hs
    have htake : (b :: (ds ++ tail)).take (ds.length + 1) = b :: ds := by simp
    have hread : fileBytes ⟨(((b :: ds).reverse.map fun x : UInt8 => x.toNat + 0xdc00) ++ read).reverse⟩ =
        some (done ++ b :: ds) := by
      rw [List.reverse_append, List.map_reverse, List.reverse_reverse, hjoin, fileBytes_append, h, fileBytes_bytes hds]
      rfl
    rw [htake] at ih
    rw [htake, ih _ hread, Nat.add_sub_cancel, List.drop_left, List.append_assoc, List.cons_append]

/-- The name of bytes has these bytes. -/
theorem fileBytes_decodeName (bs : Bytes) : (decodeName bs).fileBytes = some bs := fileBytes_decodeNameFrom bs [] [] rfl

theorem storedName_of_none {t : Text} (h : t.fileBytes = none) : t.storedName = t := by
  have hne (bs : Bytes) : t.encodeName ≠ .ok bs := by
    rw [Ne, encodeName_eq_ok_iff, h]
    simp
  unfold storedName
  split
  · split
    · exact absurd ‹_› (hne _)
    · rfl
  · rfl

/-- A file shows a name with the bytes of its own. -/
theorem fileBytes_storedName (t : Text) : t.storedName.fileBytes = t.fileBytes := by
  cases h : t.fileBytes with
  | none => rw [storedName_of_none h, h]
  | some bs =>
    unfold storedName
    split
    · rw [encodeName_eq_ok_iff.mpr h]
      exact fileBytes_decodeName bs
    · exact h

/-- Names that differ by a string between the same texts are listed apart. -/
theorem storedName_cancel {a b : Text} {s t : String}
    (h : (a ++ ofString s ++ b).storedName = (a ++ ofString t ++ b).storedName) : s = t := by
  have hs : (a ++ ofString s ++ b).fileBytes = (a ++ ofString t ++ b).fileBytes := by
    rw [← fileBytes_storedName, h, fileBytes_storedName]
  have bytes (u : String) : (a ++ ofString u ++ b).fileBytes =
      a.fileBytes.bind fun x => b.fileBytes.map fun y => x ++ Utf8.encode u ++ y := by
    rw [fileBytes_append, fileBytes_append, fileBytes_ofString]
    cases a.fileBytes <;> rfl
  -- either all names have bytes, or none of them has any and they are listed as they are
  by_cases hnone : a.fileBytes = none ∨ b.fileBytes = none
  · have hall (u : String) : (a ++ ofString u ++ b).fileBytes = none := by
      rw [bytes]
      rcases hnone with e | e <;> rw [e] <;> simp
    rw [storedName_of_none (hall s), storedName_of_none (hall t)] at h
    have hcodes : (a ++ ofString s ++ b).codes = (a ++ ofString t ++ b).codes := congrArg codes h
    simp only [codes_append, List.append_cancel_right_eq, List.append_cancel_left_eq] at hcodes
    exact ofString_injective (congrArg Text.mk hcodes)
  · rw [not_or] at hnone
    obtain ⟨x, hx⟩ := Option.ne_none_iff_exists'.mp hnone.1
    obtain ⟨y, hy⟩ := Option.ne_none_iff_exists'.mp hnone.2
    rw [bytes, bytes, hx, hy] at hs
    simp only [Option.bind_some, Option.map_some, Option.some.injEq, List.append_cancel_right_eq,
      List.append_cancel_left_eq] at hs
    have hdecode : Utf8.decode (Utf8.encode s) = Utf8.decode (Utf8.encode t) := by rw [hs]
    rw [Utf8.encode, Utf8.encode, Utf8.decode_encodeChars, Utf8.decode_encodeChars] at hdecode
    exact String.toList_injective (Except.ok.inj hdecode)

theorem exists_mem_fileBytes {n : Nat} {t : Text} {bs : Bytes} (hn : n ∈ t.codes) (hb : isByte n = true)
    (h : t.fileBytes = some bs) : ∃ b ∈ bs, 0x80 ≤ b.toNat := by
  obtain ⟨codes⟩ := t
  induction codes generalizing bs with
  | nil => cases hn
  | cons m codes ih =>
    rw [fileBytes_cons, Option.bind_eq_some_iff] at h
    obtain ⟨x, hx, h⟩ := h
    rw [Option.map_eq_some_iff] at h
    obtain ⟨y, hy, rfl⟩ := h
    rcases List.mem_cons.mp hn with rfl | hn
    · rw [nameBytes?, if_pos hb, Option.some.injEq] at hx
      subst hx
      refine ⟨_, List.mem_append_left _ List.mem_cons_self, ?_⟩
      simp only [isByte, Bool.and_eq_true, decide_eq_true_eq] at hb
      rw [Nat.toUInt8_eq, Utf8.toNat_ofNat_of_lt (by omega)]
      omega
    · obtain ⟨b, hmem, hle⟩ := ih hn hy
      exact ⟨b, List.mem_append_right _ hmem, hle⟩

/-- Only `..` is listed as `..`. -/
theorem storedName_eq_up {t : Text} (h : t.storedName = Path.up) : t = Path.up := by
  have hbytes : t.fileBytes = some (Utf8.encode "..") := by
    rw [← fileBytes_storedName, h]
    exact fileBytes_ofString ".."
  have hno : t.codes.any isByte = false := by
    rw [List.any_eq_false]
    intro n hn hb
    obtain ⟨b, hmem, hle⟩ := exists_mem_fileBytes hn hb hbytes
    have hall : (Utf8.encode "..").all (·.toNat < 0x80) = true := by decide
    exact absurd (of_decide_eq_true (List.all_eq_true.mp hall b hmem)) (Nat.not_lt.mpr hle)
  rw [storedName, hno] at h
  exact h

end Text

/-! ## Numbers in names -/

theorem toString_nat_injective {m n : Nat} (h : toString m = toString n) : m = n := by
  have value (k : Nat) : Nat.ofDigitChars 10 (toString k).toList 0 = k := by
    rw [Nat.toString_eq_ofList_toDigits, String.toList_ofList, Nat.ofDigitChars_ten_toDigits]
  rw [← value m, h, value]

theorem WallTime.padded_injective {width m n : Nat} (h : padded width m = padded width n) : m = n := by
  have value (k : Nat) : Nat.ofDigitChars 10 (padded width k).toList 0 = k := by
    rw [padded, String.toList_ofList, Nat.ofDigitChars_append, Nat.ofDigitChars_replicate_zero, Nat.mul_zero,
      Nat.ofDigitChars_ten_toDigits]
  rw [← value m, h, value]

/-- The digits of a number are digits. -/
theorem notMem_toDigits {c : Char} (hc : c.isDigit = false) (n : Nat) : c ∉ Nat.toDigits 10 n := by
  intro h
  have hdigit := Nat.isDigit_of_mem_toDigits (by decide) (by decide) h
  rw [hc] at hdigit
  cases hdigit

theorem WallTime.notMem_padded {c : Char} (hc : c.isDigit = false) (width n : Nat) : c ∉ (padded width n).toList := by
  rw [padded, String.toList_ofList, List.mem_append, not_or]
  refine ⟨fun h => ?_, notMem_toDigits hc n⟩
  rw [List.eq_of_mem_replicate h] at hc
  cases hc

end JsonnetLocals
