import BlockAsm.Code.Line
import BlockAsm.Failure

/-!
Recipes. What an instruction becomes is settled in two steps. The recipe, read off the instruction
alone, says which operands are resolved in which order and what is written then, or why nothing is.
Only carrying a recipe out involves slots.
-/

namespace BlockAsm

inductive Recipe where
  /-- Resolve the operands in order and write one line with their tokens. -/
  | line (opcode : Opcode) (operands : List Operand) (immediates : List Value)
  | abort (operands : List Operand) (why : Failure)
  /-- Return the operands, constants by way of scratch registers. -/
  | giveBack (operands : List Operand)
  /-- Lay out a loop group, fill its control slots and enter the loop. -/
  | enterLoop (index limit step : Operand) (target : Value)
  | stepLoop (index : Operand) (body : Value)
  | verbatim (payload : Value)
  deriving Repr

namespace Instruction

/-- The operand at a place, unless it is missing or null. -/
def arg? (i : Instruction) (n : Nat) : Option Operand :=
  match i.args[n]? with
  | some (.other .null) => none
  | o => o

def arg (i : Instruction) (n : Nat) (role : String) : Except Failure Operand :=
  match i.arg? n with
  | some o => .ok o
  | none => refuse (.operandMissing i.tag role)

def target (i : Instruction) : Except Failure Operand :=
  match i.dest with
  | some o => .ok o
  | none => refuse (.destinationMissing i.tag)

def fields (i : Instruction) : Except Failure Fields :=
  match i.metadata with
  | .object fields => .ok fields
  | v => .error (.fault (.notObject v))

/-- The constant that a load without operands names in its metadata. A text or a list can be searched
for the field but not asked for it. -/
def namedConstant (i : Instruction) : Except Failure Operand :=
  let missing : Except Failure Operand := refuse (.operandMissing i.tag "constant")
  match i.metadata with
  | .object fields =>
    match Table.get? fields "c" with
    | some v => .ok (.constant v)
    | none => missing
  | v => if v.finds? "c" = some false then missing else .error (.fault (.notSearchable v))

def settle (r : Except Failure Recipe) : Recipe :=
  match r with
  | .ok recipe => recipe
  | .error why => .abort [] why

def loadRecipe (i : Instruction) : Except Failure Recipe := do
  let source ← match i.args with
    | o :: _ => .ok o
    | [] => i.namedConstant
  let dest ← i.target
  .ok (.line .loadk [dest, source] [])

def moveRecipe (i : Instruction) : Except Failure Recipe := do
  let source ← i.arg 0 "source"
  let dest ← i.target
  .ok (.line .move [dest, source] [])

/-- A field that has an older name; the older one counts only if the newer is not there. -/
def fieldOr (fields : Fields) (name older : String) (otherwise : Value) : Value :=
  match Table.get? fields name with
  | some v => v
  | none => (Table.get? fields older).getD otherwise

def getFieldRecipe (i : Instruction) : Except Failure Recipe := do
  let environment := i.args.headD (.upvalue (.int 0))
  let fields ← i.fields
  let dest ← i.target
  .ok (.line .gettabup [dest, environment, .constant (fieldOr fields "key" "key_c" (.int 0))] [])

def setFieldRecipe (i : Instruction) : Except Failure Recipe := do
  let environment ← i.arg 0 "upvalue"
  let key ← i.arg 1 "key"
  let value ← i.arg 2 "value"
  .ok (.line .settabup [environment, key.ofBareName, value.ofBareName] [])

def newTableRecipe (i : Instruction) : Except Failure Recipe := do
  let fields ← i.fields
  let dest ← i.target
  .ok (.line .newtable [dest] [(Table.get? fields "array_size").getD (.int 0),
    (Table.get? fields "hash_size").getD (.int 0)])

/-- The table is resolved before key and value are looked for. -/
def setTableRecipe (i : Instruction) : Except Failure Recipe := do
  let table ← i.target
  let operands : Except Failure (List Operand) := do
    let key ← i.arg 0 "key"
    let value ← i.arg 1 "value"
    .ok [table, key.ofBareName, value.ofBareName]
  match operands with
  | .ok operands => .ok (.line .settable operands [])
  | .error why => .ok (.abort [table] why)

def callRecipe (i : Instruction) : Except Failure Recipe := do
  let callee ← i.arg 0 "callee"
  let fields ← i.fields
  .ok (.line .call [callee] [.int i.args.length, (Table.get? fields "nret").getD (.int 1)])

def arithRecipe (i : Instruction) (a : Arith) : Except Failure Recipe := do
  let left ← i.arg 0 "left"
  let right ← i.arg 1 "right"
  let dest ← i.target
  .ok (.line (.arith a) [dest, left, right] [])

def enterRecipe (i : Instruction) : Except Failure Recipe := do
  let fields ← i.fields
  match fieldOr fields "target" "loop" .null with
  | .null => refuse (.targetMissing i.tag)
  | target => do
    let index ← i.arg 0 "index"
    let limit ← i.arg 1 "limit"
    let step ← i.arg 2 "step"
    .ok (.enterLoop index limit step target)

def stepRecipe (i : Instruction) : Except Failure Recipe := do
  let fields ← i.fields
  match Fields.read fields "body" with
  | .null => refuse (.bodyMissing i.tag)
  | body => do
    let index ← i.arg 0 "index"
    .ok (.stepLoop index body)

def rawRecipe (i : Instruction) : Except Failure Recipe := do
  let fields ← i.fields
  match Fields.read fields "raw" with
  | .null => refuse (.opcodeUnknown i.tag)
  | payload => .ok (.verbatim payload)

/-- The opcode that a tag stands for, if any; a list or an object cannot be looked up. -/
def opcode? (i : Instruction) : Except Failure (Option Opcode) :=
  match i.tag with
  | .str s => .ok (Opcode.ofTag? s)
  | tag => if tag.isScalar then .ok none else .error (.fault (.tagNotScalar tag))

def opcodeRecipe (i : Instruction) : Opcode → Except Failure Recipe
  | .loadk => i.loadRecipe
  | .move => i.moveRecipe
  | .gettabup => i.getFieldRecipe
  | .settabup => i.setFieldRecipe
  | .newtable => i.newTableRecipe
  | .settable => i.setTableRecipe
  | .call => i.callRecipe
  | .ret => .ok (.giveBack i.args)
  | .arith a => i.arithRecipe a
  | .forprep => i.enterRecipe
  | .forloop => i.stepRecipe

def recipe (i : Instruction) : Recipe :=
  settle (do
    match ← i.opcode? with
    | some o => i.opcodeRecipe o
    | none => i.rawRecipe)

end Instruction

end BlockAsm
