/-!
Lines of a text. A document is cut at every kind of line break, a carriage return followed by a
line feed counting as one, and a break at the very end opens no further line. A file is read with
its line ends unified to the line feed.
-/

namespace BlockAsm.Text

def isBreak (c : Char) : Bool :=
  let n := c.toNat
  (0x0A ≤ n && n ≤ 0x0D) || (0x1C ≤ n && n ≤ 0x1E) || n == 0x85 || n == 0x2028 || n == 0x2029

/-- The lines of the text that follows an unfinished line, which is held reversed. -/
def cutLines (held : List Char) : List Char → List (List Char)
  | [] => if held.isEmpty then [] else [held.reverse]
  | '\r' :: '\n' :: rest => held.reverse :: cutLines [] rest
  | c :: rest => if isBreak c then held.reverse :: cutLines [] rest else cutLines (c :: held) rest

def lines (s : String) : List String := (cutLines [] s.toList).map String.ofList

def lineCount (s : String) : Nat := (lines s).length

/-- Carriage returns, alone or before a line feed, become line feeds. -/
def unifyBreaks : List Char → List Char
  | [] => []
  | '\r' :: '\n' :: rest => '\n' :: unifyBreaks rest
  | c :: rest => (if c = '\r' then '\n' else c) :: unifyBreaks rest

end BlockAsm.Text
