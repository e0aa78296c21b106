import BlockAsm.Number.Binary64

/-!
The fewest decimal digits that read back as a given double. The decimals that read back form an
interval around the number, its ends included when the mantissa is even. Grids of one, two, up to
seventeen significant digits are tried in turn; on each, only the two grid points next to the number
can lie nearest to it, and the first grid with a point in the interval decides.
-/

namespace BlockAsm

/-- The decimal `digits * 10 ^ exponent`. -/
structure Decimal where
  digits : Nat
  exponent : Int
  deriving DecidableEq, Repr, Inhabited

namespace Binary64

/-- Numerator and denominator of `x * 2 ^ e / 10 ^ p`. -/
def gridRatio (x : Nat) (e p : Int) : Nat × Nat :=
  (x * pow2 e.toNat * pow10 (-p).toNat, pow2 (-e).toNat * pow10 p.toNat)

def ratioLe (a b : Nat × Nat) : Bool := decide (a.1 * b.2 ≤ b.1 * a.2)

def ratioLt (a b : Nat × Nat) : Bool := decide (a.1 * b.2 < b.1 * a.2)

/-- The exponent of the leading decimal digit of `m * 2 ^ e`. -/
def leadExponent (m : Nat) (e : Int) : Int :=
  let k : Int := Int.fdiv (((Nat.log2 m : Int) + e) * 30103) 100000
  if ratioLt (gridRatio m e k) (1, 1) then k - 1
  else if ratioLe (10, 1) (gridRatio m e k) then k + 1
  else k

/-- The point of the grid `10 ^ p` that reads back as `m * 2 ^ e` and is nearest to it, ties to the
even point. Quarter units of the mantissa make both ends of the interval whole. -/
def readsBack (m : Nat) (e p : Int) : Option Nat :=
  let value := gridRatio (4 * m) (e - 2) p
  let below := if m == pow2 52 && decide (minExponent < e) then 4 * m - 1 else 4 * m - 2
  let low := gridRatio below (e - 2) p
  let high := gridRatio (4 * m + 2) (e - 2) p
  let within (c : Nat) : Bool :=
    if m % 2 == 0 then ratioLe low (c, 1) && ratioLe (c, 1) high
    else ratioLt low (c, 1) && ratioLt (c, 1) high
  let c := value.1 / value.2
  let twice := 2 * (value.1 % value.2)
  match within c, within (c + 1) with
  | true, true =>
    some (if twice < value.2 then c else if value.2 < twice then c + 1 else c + c % 2)
  | true, false => some c
  | false, true => some (c + 1)
  | false, false => none

/-- Tries `tries` grids, the first with `count` significant digits. -/
def searchGrids (m : Nat) (e lead : Int) (count : Nat) : Nat → Decimal
  | 0 => ⟨m, e⟩
  | tries + 1 =>
    let p := lead + 1 - count
    match readsBack m e p with
    | some c => ⟨c, p⟩
    | none => searchGrids m e lead (count + 1) tries

def shortest (m : Nat) (e : Int) : Decimal := searchGrids m e (leadExponent m e) 1 17

end Binary64

end BlockAsm
