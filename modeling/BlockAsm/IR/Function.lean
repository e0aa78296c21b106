import BlockAsm.IR.Operand

/-!
Functions as the lowering takes them: labelled blocks of instructions, a constant pool, upvalue
declarations, header fields and declared locals. Most parts are dynamic values here, because a function
can be put together by hand; the checking pass refuses the wrong ones that would lead astray.
-/

namespace BlockAsm

structure Instruction where
  tag : Value
  dest : Option Operand := none
  args : List Operand := []
  metadata : Value := .object []
  deriving Repr, Inhabited

namespace Instruction

def text (i : Instruction) : String :=
  let call := i.tag.plain ++ "(" ++ Value.commaSeparated (i.args.map Operand.text) ++ ")"
  match i.dest with
  | some d => d.text ++ " = " ++ call
  | none => call

end Instruction

/-- A place in a block holds an instruction, or a value that is none. -/
inductive Item where
  | instruction (i : Instruction)
  | other (v : Value)
  deriving Repr, Inhabited

def Item.text : Item → String
  | .instruction i => i.text
  | .other v => v.literal

structure Block where
  label : Value
  items : List Item := []
  deriving Repr, Inhabited

def Block.text (b : Block) : String :=
  "BasicBlock(" ++ b.label.plain ++ ", " ++ toString b.items.length ++ " insts)"

/-- An upvalue's storage descriptor and its display name, null if it has none. -/
structure UpvalueDecl where
  storage : Value
  name : Value := .null
  deriving Repr, Inhabited

inductive Upvalues where
  | declared (decls : List UpvalueDecl)
  | other (v : Value)
  deriving Repr, Inhabited

structure Function where
  name : Value := .str "anonymous"
  header : Value := .object []
  blocks : List Block := []
  consts : Value := .list []
  upvalues : Upvalues := .declared []
  locals : Value := .list []
  deriving Repr, Inhabited

def Function.size (f : Function) : Nat := f.blocks.foldr (fun b n => b.items.length + n) 0

end BlockAsm
