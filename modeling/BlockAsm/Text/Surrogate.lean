/-!
Halves of surrogate pairs that stand alone. An escape can put one into a text, where it counts as a
character, but no `Char` is one and UTF-8 has no bytes for it. Each half is therefore given by a character
of the last private use plane, its stand-in. A text that has such a character for its own sake is not
described here, and what reads texts stops at one.
-/

namespace BlockAsm.Text

def standIn (unit : Nat) : Char := Char.ofNat (0x100000 + unit)

/-- The half that a character stands in for. -/
def half? (c : Char) : Option Nat :=
  if 0x10D800 ≤ c.toNat ∧ c.toNat ≤ 0x10DFFF then some (c.toNat - 0x100000) else none

def isStandIn (c : Char) : Bool := (half? c).isSome

/-- In the name of a file a half of these stands for a byte that is part of no character. -/
def isStrayByte (c : Char) : Bool := (half? c).any fun unit => 0xDC80 ≤ unit && unit ≤ 0xDCFF

end BlockAsm.Text
