import BlockAsm.Text.Surrogate

/-!
Reading and writing UTF-8. The reader is a state machine whose state between two bytes is either "at the start
of a character" or a character part way through, with the range its next byte has to lie in. The
ranges after the first byte are the tight ones, so overlong forms, surrogates and code points past
the last are refused at their second byte.
-/

namespace BlockAsm.Text

/-- A character part way through: its value so far, how many bytes are still to come, the range of
the next of them, and how many have been read. -/
structure Unfinished where
  value : Nat
  need : Nat
  low : Nat
  high : Nat
  seen : Nat

inductive Utf8Reason where
  | invalidStart
  | invalidContinuation
  | unexpectedEnd
  deriving DecidableEq, Repr

/-- Where reading stopped: the bytes at fault start at `start`, and the first of them is `first`. -/
structure Utf8Error where
  start : Nat
  first : Nat
  count : Nat
  reason : Utf8Reason
  deriving DecidableEq, Repr

def leadByte (b : Nat) : Option Unfinished :=
  if 0xC2 ≤ b && b ≤ 0xDF then some ⟨b - 0xC0, 1, 0x80, 0xBF, 1⟩
  else if b == 0xE0 then some ⟨0, 2, 0xA0, 0xBF, 1⟩
  else if b == 0xED then some ⟨0xD, 2, 0x80, 0x9F, 1⟩
  else if 0xE1 ≤ b && b ≤ 0xEF then some ⟨b - 0xE0, 2, 0x80, 0xBF, 1⟩
  else if b == 0xF0 then some ⟨0, 3, 0x90, 0xBF, 1⟩
  else if 0xF1 ≤ b && b ≤ 0xF3 then some ⟨b - 0xF0, 3, 0x80, 0xBF, 1⟩
  else if b == 0xF4 then some ⟨4, 3, 0x80, 0x8F, 1⟩
  else none

def Unfinished.next (p : Unfinished) (b : Nat) : Unfinished :=
  ⟨64 * p.value + (b - 0x80), p.need - 1, 0x80, 0xBF, p.seen + 1⟩

/-- Reads on from byte `pos`; `first` is the first byte of the character part way through, and the
characters read so far are held reversed. -/
def readUtf8 (pos first : Nat) (state : Option Unfinished) (held : List Char) :
    List UInt8 → Except Utf8Error (List Char)
  | [] =>
    match state with
    | none => .ok held.reverse
    | some p => .error ⟨pos - p.seen, first, p.seen, .unexpectedEnd⟩
  | byte :: rest =>
    let b := byte.toNat
    match state with
    | none =>
      if b < 0x80 then readUtf8 (pos + 1) 0 none (Char.ofNat b :: held) rest
      else match leadByte b with
        | some p => readUtf8 (pos + 1) b (some p) held rest
        | none => .error ⟨pos, b, 1, .invalidStart⟩
    | some p =>
      if p.low ≤ b && b ≤ p.high then
        if p.need == 1 then
          readUtf8 (pos + 1) 0 none (Char.ofNat (p.next b).value :: held) rest
        else readUtf8 (pos + 1) first (some (p.next b)) held rest
      else .error ⟨pos - p.seen, first, p.seen, .invalidContinuation⟩

def decodeUtf8 (bytes : List UInt8) : Except Utf8Error (List Char) := readUtf8 0 0 none [] bytes

/-- The bytes of a text. Half of a pair has none. -/
def encodeUtf8 (s : String) : Option (List UInt8) :=
  if s.toList.any isStandIn then none else some s.toUTF8.toList

end BlockAsm.Text
