import BlockAsm.Text.Surrogate
import BlockAsm.Text.Visible

/-!
Three ways to write a text between quotes.

A literal takes single quotes unless only double quotes avoid an escape, and escapes what leaves no
mark. A JSON string escapes everything outside printable ASCII, in units of sixteen bits. A constant
of the assembly document escapes the backslash and the double quote and nothing else.
-/

namespace BlockAsm.Text

def hexDigit (n : Nat) : Char := Nat.digitChar (n % 16)

/-- The last `width` hexadecimal digits of a number. -/
def hex : Nat → Nat → List Char
  | _, 0 => []
  | n, width + 1 => hex (n / 16) width ++ [hexDigit n]

def literalQuote (cs : List Char) : Char :=
  if cs.contains '\'' && !cs.contains '"' then '"' else '\''

def literalChar (quote c : Char) : List Char :=
  if c == quote || c == '\\' then ['\\', c]
  else if c == '\n' then ['\\', 'n']
  else if c == '\r' then ['\\', 'r']
  else if c == '\t' then ['\\', 't']
  else if isVisible c then [c]
  else if c.toNat < 0x100 then '\\' :: 'x' :: hex c.toNat 2
  else if c.toNat < 0x10000 then '\\' :: 'u' :: hex c.toNat 4
  else match half? c with
    | some unit => '\\' :: 'u' :: hex unit 4
    | none => '\\' :: 'U' :: hex c.toNat 8

def literal (s : String) : String :=
  let cs := s.toList
  let quote := literalQuote cs
  String.ofList (quote :: cs.flatMap (literalChar quote) ++ [quote])

def jsonUnit (n : Nat) : List Char := '\\' :: 'u' :: hex n 4

def jsonChar (c : Char) : List Char :=
  let n := c.toNat
  if c == '"' || c == '\\' then ['\\', c]
  else if 0x20 ≤ n && n < 0x7F then [c]
  else if c == '\n' then ['\\', 'n']
  else if c == '\r' then ['\\', 'r']
  else if c == '\t' then ['\\', 't']
  else if n == 0x08 then ['\\', 'b']
  else if n == 0x0C then ['\\', 'f']
  else if n < 0x10000 then jsonUnit n
  else match half? c with
    | some unit => jsonUnit unit
    | none => jsonUnit (0xD800 + (n - 0x10000) / 0x400) ++ jsonUnit (0xDC00 + (n - 0x10000) % 0x400)

def json (s : String) : String := String.ofList ('"' :: s.toList.flatMap jsonChar ++ ['"'])

def constantChar (c : Char) : List Char :=
  if c == '\\' || c == '"' then ['\\', c] else [c]

def escapeConstant (s : String) : String := String.ofList (s.toList.flatMap constantChar)

end BlockAsm.Text
