/-
  JsonnetLocals.Number.Double — double-precision numbers as their 64 bits.

  - `Double.ofDecimal` rounds `digits · 10^exponent` to the nearest double, a tie to the even one.
  - `Double.shortest` gives the fewest decimal digits that read back as the same double, and of
    those the nearest.
  - `Double.text` writes these digits: positionally for exponents from -4 to 15, else with a
    two-digit exponent.
-/

namespace JsonnetLocals

structure Double where
  bits : UInt64
  deriving DecidableEq, Repr

namespace Double

/-- The bit that a significand has without being stored. -/
def hiddenBit : Nat := 0x10000000000000

/-- The bits of the numbers too large for a finite double. -/
def infinityBits : Nat := 0x7ff0000000000000

def infinity : Double := ⟨infinityBits.toUInt64⟩

def nan : Double := ⟨0x7ff8000000000000⟩

def neg (x : Double) : Double := ⟨x.bits ^^^ 0x8000000000000000⟩

/-- `num / den` rounded to an integer, a tie to the even neighbour. -/
def roundDiv (num den : Nat) : Nat :=
  let q := num / den
  let r := num % den
  if 2 * r < den then q
  else if den < 2 * r then q + 1
  else if q % 2 = 0 then q else q + 1

def scaledRound (num den : Nat) (q : Int) : Nat :=
  if 0 ≤ q then roundDiv num (den * Nat.pow 2 q.toNat) else roundDiv (num * Nat.pow 2 (-q).toNat) den

def leastExponent : Int := -1074

/-- The exponent of the unit in the last place of the double nearest `num / den`, before a carry. -/
def unitExponent (num den : Nat) : Int :=
  let k : Int := (num.log2 : Int) - den.log2
  let q := max (k - 53) leastExponent
  let atLeast :=
    if 0 ≤ q then decide (2 * hiddenBit * den * Nat.pow 2 q.toNat ≤ num)
    else decide (2 * hiddenBit * den ≤ num * Nat.pow 2 (-q).toNat)
  if atLeast then q + 1 else q

/-- The double nearest a positive fraction. A significand of 53 bits carries its leading bit into
    the exponent field, and a carry out of rounding does the same. -/
def ofFraction (num den : Nat) : Double :=
  let q := unitExponent num den
  let bits := (q - leastExponent).toNat * hiddenBit + scaledRound num den q
  ⟨(min bits infinityBits).toUInt64⟩

/-- The double nearest `digits · 10^exponent`. Far beyond the ends of the range no power is formed. -/
def ofDecimal (digits : Nat) (exponent : Int) : Double :=
  if digits = 0 then ⟨0⟩
  else
    let magnitude : Int := ((digits.log2 * 30103 / 100000 : Nat) : Int) + exponent
    if 320 < magnitude then infinity
    else if magnitude < -340 then ⟨0⟩
    else if 0 ≤ exponent then ofFraction (digits * Nat.pow 10 exponent.toNat) 1
    else ofFraction digits (Nat.pow 10 (-exponent).toNat)

def isNegative (x : Double) : Bool := 0x8000000000000000 ≤ x.bits

def abs (x : Double) : Double := if x.isNegative then x.neg else x

def toFraction (x : Double) : Nat × Nat :=
  let raw : Nat := x.bits.toNat / hiddenBit
  let low : Nat := x.bits.toNat % hiddenBit
  let (m, q) : Nat × Int := if raw = 0 then (low, leastExponent) else (low + hiddenBit, (raw : Int) - 1 + leastExponent)
  if 0 ≤ q then (m * Nat.pow 2 q.toNat, 1) else (m, Nat.pow 2 (-q).toNat)

/-- The exponent `e` with `10^e ≤ num / den < 10^(e + 1)`. -/
def decimalExponent (num den : Nat) : Int :=
  if den ≤ num then ((Nat.toDigits 10 (num / den)).length : Int) - 1
  else
    let n := (Nat.toDigits 10 (den / num)).length
    if den ≤ num * Nat.pow 10 (n - 1) then -((n : Int) - 1) else -(n : Int)

/-- A decimal of `n` digits that reads back as `x`: the nearer of two, and of two as near the even one. -/
def withDigits (x : Double) (num den : Nat) (top : Int) (n : Nat) : Option (Nat × Int) :=
  let e := top - ((n : Int) - 1)
  let (a, b) := if 0 ≤ e then (num, den * Nat.pow 10 e.toNat) else (num * Nat.pow 10 (-e).toNat, den)
  let lo := a / b
  let loOk := lo ≠ 0 && ofDecimal lo e == x
  let hiOk := ofDecimal (lo + 1) e == x
  if loOk && hiOk then some (roundDiv a b, e)
  else if loOk then some (lo, e)
  else if hiOk then some (lo + 1, e)
  else none

/-- The fewest digits that read back as a finite positive double, with their exponent. -/
def shortest (x : Double) : Nat × Int :=
  let (num, den) := x.toFraction
  let top := decimalExponent num den
  (((List.range 17).map (· + 1)).findSome? (withDigits x num den top)).getD (0, 0)

def trimmedDigits (n : Nat) : List Char :=
  ((Nat.toDigits 10 n).reverse.dropWhile (· == '0')).reverse

/-- Digits `ds` with the point after the first one moved `e` places to the right. -/
def layOut (ds : List Char) (e : Int) : String :=
  if -4 ≤ e && e < 16 then
    if e < 0 then "0." ++ String.ofList (List.replicate ((-e).toNat - 1) '0' ++ ds)
    else
      let whole := ds.take (e.toNat + 1)
      let tail := ds.drop (e.toNat + 1)
      String.ofList (whole ++ List.replicate (e.toNat + 1 - whole.length) '0') ++ "." ++
        (if tail.isEmpty then "0" else String.ofList tail)
  else
    let mark := if e < 0 then "e-" else "e+"
    let size := toString e.natAbs
    let tail := ds.drop 1
    String.ofList (ds.take 1) ++ (if tail.isEmpty then "" else "." ++ String.ofList tail) ++ mark ++
      (if size.length < 2 then "0" ++ size else size)

def text (x : Double) : String :=
  let sign := if x.isNegative then "-" else ""
  let a := x.abs
  if infinityBits < a.bits.toNat then "nan"
  else if a.bits.toNat = infinityBits then sign ++ "inf"
  else if a.bits = 0 then sign ++ "0.0"
  else
    let (n, e) := a.shortest
    let ds := trimmedDigits n
    sign ++ layOut ds (e + ((Nat.toDigits 10 n).length : Int) - 1)

end Double

end JsonnetLocals
