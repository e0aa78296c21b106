import BlockAsm.Value.Text

/-!
Operands: a named register, an entry of the constant pool, an entry of the upvalue list, or a value
that is none of these and has no token.
-/

namespace BlockAsm

inductive Operand where
  | register (name : Value)
  | constant (index : Value)
  | upvalue (index : Value)
  | other (v : Value)
  deriving Repr, Inhabited

namespace Operand

def text : Operand → String
  | .register name => "%" ++ name.plain
  | .constant index => "K" ++ index.plain
  | .upvalue index => "U" ++ index.plain
  | .other v => v.literal

/-- A bare name stands for a register where an instruction takes keys and values. -/
def ofBareName : Operand → Operand
  | .other (.str s) => .register (.str s)
  | o => o

end Operand

end BlockAsm
