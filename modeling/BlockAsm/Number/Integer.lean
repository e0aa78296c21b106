import BlockAsm.Text.Digit
import BlockAsm.Text.Blank

/-!
Integers read from text. An integer has an optional sign and digits of any script, with single
underscores allowed between digits and padding at both ends. Readers give up on numbers of more than
`maxDigits` digits, leading zeros counted.
-/

namespace BlockAsm.Integer

def maxDigits : Nat := 4300

/-- The digits of a number whose underscores each stand between two digits. -/
def ungroup? : List Char → Option (List Char)
  | [] => none
  | [c] => if Text.isDigit c then some [c] else none
  | c :: '_' :: rest => if Text.isDigit c then (ungroup? rest).map (c :: ·) else none
  | c :: rest => if Text.isDigit c then (ungroup? rest).map (c :: ·) else none

def natural? (cs : List Char) : Option Nat :=
  match ungroup? cs with
  | some ds => if ds.length ≤ maxDigits then some (Text.digitsValue ds) else none
  | none => none

def ofText? (s : String) : Option Int :=
  match Text.trimPadding s.toList with
  | '+' :: rest => (natural? rest).map Int.ofNat
  | '-' :: rest => (natural? rest).map fun n => -(n : Int)
  | rest => (natural? rest).map Int.ofNat

end BlockAsm.Integer
