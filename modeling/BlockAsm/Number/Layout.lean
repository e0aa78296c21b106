import BlockAsm.Number.Shortest

/-!
Numbers as text. A double is written with its fewest digits: positionally, always with a point, while
the exponent of its leading digit is at least `-4` and below `16`, and else as a mantissa with a
signed exponent of two digits or more.
-/

namespace BlockAsm

structure FloatWords where
  nan : String
  infinity : String

namespace Decimal

def trimZeros (digits : List Char) : List Char :=
  (digits.reverse.dropWhile (· == '0')).reverse

def figures (d : Decimal) : List Char := trimZeros (Nat.toDigits 10 d.digits)

/-- The exponent of the leading digit. -/
def lead (d : Decimal) : Int := d.exponent + (Nat.toDigits 10 d.digits).length - 1

def zerosText (n : Nat) : List Char := List.replicate n '0'

def positional (figures : List Char) (lead : Int) : List Char :=
  if 0 ≤ lead then
    let whole := lead.toNat + 1
    let left := figures.take whole ++ zerosText (whole - figures.length)
    let right := figures.drop whole
    left ++ '.' :: (if right.isEmpty then ['0'] else right)
  else '0' :: '.' :: zerosText ((-lead).toNat - 1) ++ figures

def exponentText (e : Int) : List Char :=
  let digits := Nat.toDigits 10 e.natAbs
  (if e < 0 then '-' else '+') :: zerosText (2 - digits.length) ++ digits

def scientific (figures : List Char) (lead : Int) : List Char :=
  let rest := figures.drop 1
  figures.take 1 ++ (if rest.isEmpty then [] else '.' :: rest) ++ 'e' :: exponentText lead

def text (d : Decimal) : List Char :=
  if decide (-4 ≤ d.lead) && decide (d.lead < 16) then positional d.figures d.lead
  else scientific d.figures d.lead

end Decimal

namespace Binary64

def text (words : FloatWords) : Binary64 → String
  | .nan => words.nan
  | .infinite negative => (if negative then "-" else "") ++ words.infinity
  | .finite negative m e =>
    (if negative then "-" else "") ++
      (if m == 0 then "0.0" else String.ofList (shortest m e).text)

end Binary64

end BlockAsm
