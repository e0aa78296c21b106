/-!
Opcodes, the tags that instructions carry for them, and the mnemonics of the machine lines that
they become.
-/

namespace BlockAsm

inductive Arith where
  | add
  | sub
  | mul
  | div
  | mod
  | pow
  | idiv
  deriving DecidableEq, Repr

inductive Opcode where
  | loadk
  | move
  | gettabup
  | settabup
  | newtable
  | settable
  | call
  | ret
  | arith (a : Arith)
  | forprep
  | forloop
  deriving DecidableEq, Repr

def Arith.tag : Arith → String
  | .add => "add"
  | .sub => "sub"
  | .mul => "mul"
  | .div => "div"
  | .mod => "mod"
  | .pow => "pow"
  | .idiv => "idiv"

def Arith.mnemonic : Arith → String
  | .add => "ADD"
  | .sub => "SUB"
  | .mul => "MUL"
  | .div => "DIV"
  | .mod => "MOD"
  | .pow => "POW"
  | .idiv => "IDIV"

namespace Opcode

def tag : Opcode → String
  | .loadk => "const"
  | .move => "move"
  | .gettabup => "getfield_env"
  | .settabup => "settabup"
  | .newtable => "newtable"
  | .settable => "settable"
  | .call => "call"
  | .ret => "return"
  | .arith a => a.tag
  | .forprep => "for_prep"
  | .forloop => "for_loop"

def mnemonic : Opcode → String
  | .loadk => "LOADK"
  | .move => "MOVE"
  | .gettabup => "GETTABUP"
  | .settabup => "SETTABUP"
  | .newtable => "NEWTABLE"
  | .settable => "SETTABLE"
  | .call => "CALL"
  | .ret => "RETURN"
  | .arith a => a.mnemonic
  | .forprep => "FORPREP"
  | .forloop => "FORLOOP"

def isBinary : Opcode → Bool
  | .arith _ => true
  | _ => false

/-- The opcode of a tag. Five opcodes have a second tag. -/
def ofTag? (tag : String) : Option Opcode :=
  match tag with
  | "const" => some .loadk
  | "loadk" => some .loadk
  | "move" => some .move
  | "copy" => some .move
  | "getfield_env" => some .gettabup
  | "gettabup" => some .gettabup
  | "settabup" => some .settabup
  | "newtable" => some .newtable
  | "settable" => some .settable
  | "call" => some .call
  | "return" => some .ret
  | "ret" => some .ret
  | "add" => some (.arith .add)
  | "sub" => some (.arith .sub)
  | "mul" => some (.arith .mul)
  | "div" => some (.arith .div)
  | "mod" => some (.arith .mod)
  | "pow" => some (.arith .pow)
  | "idiv" => some (.arith .idiv)
  | "for_prep" => some .forprep
  | "for_loop" => some .forloop
  | "forloop" => some .forloop
  | _ => none

end Opcode

end BlockAsm
