/-
  JsonnetLocals.Proofs.Text.Hex — hexadecimal digits and the numbers that they stand for.

  A digit is less than sixteen and reads back as itself, so the digits of a number read back as the number,
  whatever zeros stand in front (`hexNumber_hexDigits`). What holds of the digits holds of all that numbers
  are written with (`all_hexDigits`). Those of a 16-bit unit are four (`Utf8.toList_hexDigits_four`).
-/

import JsonnetLocals.Syntax.Literal

namespace JsonnetLocals

theorem hexValue_lt {c : Char} {v : Nat} (h : Literal.hexValue c = some v) : v < 16 := by
  have hle (a b : Char) : a ≤ b ↔ a.toNat ≤ b.toNat := Iff.rfl
  unfold Literal.hexValue at h
  simp only [Bool.and_eq_true, decide_eq_true_eq, hle] at h
  have h9 : '9'.toNat = 57 := rfl
  have hf : 'f'.toNat = 102 := rfl
  have hF : 'F'.toNat = 70 := rfl
  repeat' split at h
  all_goals
    first
    | cases h; omega
    | cases h

/-- The number that hexadecimal digits stand for. -/
def hexNumber (cs : List Char) : Nat := cs.foldl (fun n c => 16 * n + (Literal.hexValue c).getD 0) 0

theorem hexNumber_concat (cs : List Char) (c : Char) :
    hexNumber (cs ++ [c]) = 16 * hexNumber cs + (Literal.hexValue c).getD 0 := by
  unfold hexNumber
  rw [List.foldl_append]
  rfl

theorem hexValue_digitChar {d : Nat} (h : d < 16) : Literal.hexValue (Nat.digitChar d) = some d := by
  have hall : ∀ d < 16, Literal.hexValue (Nat.digitChar d) = some d := by decide
  exact hall d h

/-- The digits of a number read back as the number. -/
theorem hexNumber_toDigits (n : Nat) : hexNumber (Nat.toDigits 16 n) = n := by
  induction n using Nat.strongRecOn with
  | _ n ih =>
    by_cases hn : n < 16
    · rw [Nat.toDigits_of_lt_base hn]
      simp [hexNumber, hexValue_digitChar hn]
    · have hlt : n / 16 < n := Nat.div_lt_self (by omega) (by decide)
      have hdigit : n % 16 < 16 := Nat.mod_lt n (by decide)
      rw [Nat.toDigits_of_base_le (by decide) (by omega), hexNumber_concat, ih _ hlt, hexValue_digitChar hdigit,
        Option.getD_some]
      omega

/-- Zeros in front do not count. -/
theorem hexNumber_replicate_append (k : Nat) (cs : List Char) :
    hexNumber (List.replicate k '0' ++ cs) = hexNumber cs := by
  have hzeros : (List.replicate k '0').foldl (fun n c => 16 * n + (Literal.hexValue c).getD 0) 0 = 0 := by
    induction k with
    | zero => rfl
    | succ k ih => exact ih
  unfold hexNumber
  rw [List.foldl_append, hzeros]

theorem hexNumber_hexDigits (width n : Nat) : hexNumber (Utf8.hexDigits width n).toList = n := by
  rw [Utf8.hexDigits, String.toList_ofList, hexNumber_replicate_append, hexNumber_toDigits]

/-- What holds of the sixteen digits holds of those of every number. -/
theorem all_hexDigits {p : Char → Bool} (hp : ∀ d < 16, p (Nat.digitChar d) = true) (width n : Nat) :
    (Utf8.hexDigits width n).toList.all p = true := by
  have hdigits : (Nat.toDigits 16 n).all p = true := by
    induction n using Nat.strongRecOn with
    | _ n ih =>
      by_cases hn : n < 16
      · rw [Nat.toDigits_of_lt_base hn]
        simp [hp n hn]
      · have hlt : n / 16 < n := Nat.div_lt_self (by omega) (by decide)
        rw [Nat.toDigits_of_base_le (by decide) (by omega), List.all_append, ih _ hlt]
        simp [hp _ (Nat.mod_lt n (by decide : 0 < 16))]
  rw [Utf8.hexDigits, String.toList_ofList, List.all_append, hdigits, Bool.and_true, List.all_replicate]
  have hzero : p '0' = true := hp 0 (by decide)
  simp [hzero]

/-- The four digits of a 16-bit unit. -/
theorem Utf8.toList_hexDigits_four {u : Nat} (h : u < 0x10000) : (hexDigits 4 u).toList =
    [Nat.digitChar (u / 4096), Nat.digitChar (u / 256 % 16), Nat.digitChar (u / 16 % 16), Nat.digitChar (u % 16)] := by
  unfold hexDigits
  rw [String.toList_ofList]
  by_cases h1 : u < 16
  · rw [Nat.toDigits_of_lt_base h1, show u / 4096 = 0 by omega, show u / 256 % 16 = 0 by omega,
      show u / 16 % 16 = 0 by omega, Nat.mod_eq_of_lt h1]
    rfl
  rw [Nat.toDigits_of_base_le (by decide) (by omega)]
  by_cases h2 : u / 16 < 16
  · rw [Nat.toDigits_of_lt_base h2, show u / 4096 = 0 by omega, show u / 256 % 16 = 0 by omega, Nat.mod_eq_of_lt h2]
    rfl
  rw [Nat.toDigits_of_base_le (by decide) (by omega), Nat.div_div_eq_div_mul]
  by_cases h3 : u / (16 * 16) < 16
  · rw [Nat.toDigits_of_lt_base h3, show u / 4096 = 0 by omega, Nat.mod_eq_of_lt h3]
    rfl
  · rw [Nat.toDigits_of_base_le (by decide) (by omega), Nat.div_div_eq_div_mul, Nat.toDigits_of_lt_base (by omega)]
    rfl

end JsonnetLocals
