import BlockAsm.IR.Opcode
import BlockAsm.IR.Operand

/-!
Lines of assembly. A code line is an opcode's mnemonic, the tokens of its operands and then plain
values such as counts and labels. Beside code a listing holds fixed texts, and payloads that an
instruction asks to have written as they are.
-/

namespace BlockAsm

inductive Token where
  | register (slot : Int)
  | constant (index : Value)
  | upvalue (index : Value)
  deriving Repr, Inhabited

def Token.text : Token → String
  | .register slot => "R" ++ toString slot
  | .constant index => "K" ++ index.plain
  | .upvalue index => "U" ++ index.plain

structure Code where
  opcode : Opcode
  tokens : List Token
  immediates : List Value := []
  deriving Repr

def Code.text (c : Code) : String :=
  String.intercalate " "
    (c.opcode.mnemonic :: c.tokens.map Token.text ++ c.immediates.map Value.plain)

inductive Line where
  | text (s : String)
  | code (c : Code)
  | verbatim (payload : Value)
  deriving Repr

namespace Line

/-- What a line holds; only a payload can be other than text. -/
def value : Line → Value
  | .text s => .str s
  | .code c => .str c.text
  | .verbatim payload => payload

end Line

end BlockAsm
