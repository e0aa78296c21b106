/-!
Double-precision numbers as exact values. A finite number is a sign, a mantissa below 2^53 and an
exponent of two; the mantissa is at least 2^52 unless the exponent is the smallest one, so each
number has one form and equality of forms is equality of numbers, the two zeros apart.

A decimal is read by rounding its exact quotient to the nearest number, ties to the even mantissa.
-/

namespace BlockAsm

inductive Binary64 where
  | nan
  | infinite (negative : Bool)
  | finite (negative : Bool) (mantissa : Nat) (exponent : Int)
  deriving DecidableEq, Repr, Inhabited

namespace Binary64

def pow2 (n : Nat) : Nat := Nat.pow 2 n

def pow10 (n : Nat) : Nat := Nat.pow 10 n

def minExponent : Int := -1074

def maxExponent : Int := 971

def zero (negative : Bool) : Binary64 := .finite negative 0 minExponent

def isZero : Binary64 → Bool
  | .finite _ m _ => m == 0
  | _ => false

/-- The quotient rounded to the nearest integer, ties to the even one. -/
def roundDiv (num den : Nat) : Nat :=
  let q := num / den
  let r := num % den
  if 2 * r < den then q else if den < 2 * r then q + 1 else q + q % 2

/-- `num / den` in units of `2 ^ e`, rounded. -/
def scaledRound (num den : Nat) (e : Int) : Nat :=
  if 0 ≤ e then roundDiv num (den * pow2 e.toNat) else roundDiv (num * pow2 (-e).toNat) den

/-- The exponent at which `num / den` has a mantissa of 53 bits, or the smallest exponent. -/
def unitExponent (num den : Nat) : Int :=
  let e : Int := (Nat.log2 num : Int) - (Nat.log2 den : Int) - 52
  let low := if 0 ≤ e then num < den * pow2 e.toNat * pow2 52 else num * pow2 (-e).toNat < den * pow2 52
  max minExponent (if low then e - 1 else e)

def nearest (negative : Bool) (num den : Nat) : Binary64 :=
  let e := unitExponent num den
  let m := scaledRound num den e
  let (m, e) := if m == pow2 53 then (pow2 52, e + 1) else (m, e)
  if maxExponent < e then .infinite negative else .finite negative m e

def digitCount (n : Nat) : Nat := (Nat.toDigits 10 n).length

/-- The number nearest to `mantissa * 10 ^ exponent`. Exponents far out of range are settled without
computing the power. -/
def ofDecimal (negative : Bool) (mantissa : Nat) (exponent : Int) : Binary64 :=
  if mantissa == 0 then zero negative
  else if 400 < exponent + digitCount mantissa then .infinite negative
  else if exponent + digitCount mantissa < -400 then zero negative
  else if 0 ≤ exponent then nearest negative (mantissa * pow10 exponent.toNat) 1
  else nearest negative mantissa (pow10 (-exponent).toNat)

def toInt? : Binary64 → Option Int
  | .finite negative m e =>
    let sign (n : Nat) : Int := if negative then -(n : Int) else n
    if 0 ≤ e then some (sign (m * pow2 e.toNat))
    else if m % pow2 (-e).toNat == 0 then some (sign (m / pow2 (-e).toNat)) else none
  | _ => none

end Binary64

end BlockAsm
