import BlockAsm.Code.Emission
import Mathlib

/-!
What straight-line code does. Lines run on a file of numbered slots and instructions on a file of
named registers, both beside one abstract memory. An interpretation gives the opcodes a meaning; the
same meaning serves both sides. What an instruction reads and writes is said here in its own terms and
not by way of its recipe, so that a recipe that mixes up operands does not mean the same any more.

Calls, loops and payloads are left without a meaning: a run that meets one is stuck.
-/

namespace BlockAsm

universe u v

inductive Role where
  | result
  | effect
  | exit
  deriving DecidableEq, Repr

def Opcode.role? : Opcode → Option Role
  | .loadk => some .result
  | .move => some .result
  | .gettabup => some .result
  | .newtable => some .result
  | .arith _ => some .result
  | .settabup => some .effect
  | .settable => some .effect
  | .ret => some .exit
  | .call => none
  | .forprep => none
  | .forloop => none

namespace Instruction

def field? (i : Instruction) (name : String) : Option Value :=
  match i.metadata with
  | .object fields => Table.get? fields name
  | _ => none

/-- The operands whose values an instruction of straight-line code reads. -/
def sources (i : Instruction) : Opcode → List Operand
  | .loadk => (i.args.head?.or ((i.field? "c").map .constant)).toList
  | .move => i.args.take 1
  | .gettabup =>
    [i.args.headD (.upvalue (.int 0)),
      .constant (((i.field? "key").or (i.field? "key_c")).getD (.int 0))]
  | .settabup => i.args.take 1 ++ ((i.args.drop 1).take 2).map Operand.ofBareName
  | .settable => i.dest.toList ++ (i.args.take 2).map Operand.ofBareName
  | .arith _ => i.args.take 2
  | .ret => i.args
  | _ => []

/-- The plain values that an instruction of straight-line code carries. -/
def immediates (i : Instruction) : Opcode → List Value
  | .newtable =>
    [(i.field? "array_size").getD (.int 0), (i.field? "hash_size").getD (.int 0)]
  | _ => []

end Instruction

/-- Cells that hold values, and a memory beside them. -/
structure Store (κ : Type) (V : Type u) (M : Type v) where
  cells : κ → V
  memory : M

namespace Store

variable {κ : Type} {V : Type u} {M : Type v} [DecidableEq κ]

def put (s : Store κ V M) (k : κ) (r : V × M) : Store κ V M :=
  ⟨Function.update s.cells k r.1, r.2⟩

@[simp] theorem cells_put_self (s : Store κ V M) (k : κ) (r : V × M) :
    (s.put k r).cells k = r.1 := Function.update_self ..

theorem cells_put_of_ne (s : Store κ V M) {k l : κ} (r : V × M) (h : l ≠ k) :
    (s.put k r).cells l = s.cells l := Function.update_of_ne h ..

theorem put_self (s : Store κ V M) (k : κ) : s.put k (s.cells k, s.memory) = s := by
  simp [put]

end Store

/-- A meaning for opcodes: the result and the memory that come of the plain values, the values read
and the memory before. To load an entry of the pool is to get that entry. -/
structure Interpretation (V : Type u) (M : Type v) where
  pool : Value → V
  upvalue : Value → M → V
  apply : Opcode → List Value → List V → M → V × M
  load_pool : ∀ index memory, apply .loadk [] [pool index] memory = (pool index, memory)

namespace Interpretation

variable {V : Type u} {M : Type v} (I : Interpretation V M)

def token (s : Store Int V M) : Token → V
  | .register slot => s.cells slot
  | .constant index => I.pool index
  | .upvalue index => I.upvalue index s.memory

@[simp] theorem token_register (s : Store Int V M) (slot : Int) :
    I.token s (.register slot) = s.cells slot := rfl

/-- The value of an operand; only a register with a text for a name has one among registers. -/
def operand? (s : Store String V M) : Operand → Option V
  | .register (.str name) => some (s.cells name)
  | .constant index => some (I.pool index)
  | .upvalue index => some (I.upvalue index s.memory)
  | _ => none

/-- Runs a line and gives the lists of values that it gave back, at most one. -/
def runLine (s : Store Int V M) : Line → Option (Store Int V M × List (List V))
  | .code ⟨opcode, tokens, immediates⟩ =>
    match opcode.role?, tokens with
    | some .result, .register slot :: sources =>
      some (s.put slot (I.apply opcode immediates (sources.map (I.token s)) s.memory), [])
    | some .effect, sources =>
      some (⟨s.cells, (I.apply opcode immediates (sources.map (I.token s)) s.memory).2⟩, [])
    | some .exit, sources => some (s, [sources.map (I.token s)])
    | _, _ => none
  | _ => none

def runLines (s : Store Int V M) : List Line → Option (Store Int V M × List (List V))
  | [] => some (s, [])
  | line :: rest =>
    (I.runLine s line).bind fun (t, given) =>
      (runLines t rest).map fun (u, more) => (u, given ++ more)

def runInstruction (s : Store String V M) (i : Instruction) :
    Option (Store String V M × List (List V)) :=
  match i.opcode? with
  | .ok (some opcode) =>
    ((i.sources opcode).mapM (I.operand? s)).bind fun values =>
      let after := I.apply opcode (i.immediates opcode) values s.memory
      match opcode.role?, i.dest with
      | some .result, some (.register (.str name)) => some (s.put name after, [])
      | some .effect, _ => some (⟨s.cells, after.2⟩, [])
      | some .exit, _ => some (s, [values])
      | _, _ => none
  | _ => none

def runInstructions (s : Store String V M) :
    List Instruction → Option (Store String V M × List (List V))
  | [] => some (s, [])
  | i :: rest =>
    (I.runInstruction s i).bind fun (t, given) =>
      (runInstructions t rest).map fun (u, more) => (u, given ++ more)

theorem runLines_append {s t u : Store Int V M} {first second : List Line}
    {given more : List (List V)} (h : I.runLines s first = some (t, given))
    (k : I.runLines t second = some (u, more)) :
    I.runLines s (first ++ second) = some (u, given ++ more) := by
  induction first generalizing s given with
  | nil =>
    simp only [runLines, Option.some.injEq, Prod.mk.injEq] at h
    obtain ⟨rfl, rfl⟩ := h
    exact k
  | cons line rest ih =>
    simp only [runLines, Option.bind_eq_some_iff, Option.map_eq_some_iff, Prod.exists,
      Prod.mk.injEq] at h
    obtain ⟨r, out, ran, v, outs, rested, rfl, rfl⟩ := h
    simp only [List.cons_append, runLines, ran, Option.bind_some, ih rested, Option.map_some,
      List.append_assoc]

theorem runLines_singleton {s t : Store Int V M} {line : Line} {given : List (List V)}
    (h : I.runLine s line = some (t, given)) : I.runLines s [line] = some (t, given) := by
  simp [runLines, h]

theorem runLine_load (s : Store Int V M) (slot : Int) (index : Value) :
    I.runLine s (.code ⟨.loadk, [.register slot, .constant index], []⟩) =
      some (s.put slot (I.pool index, s.memory), []) := by
  simp [runLine, Opcode.role?, token, I.load_pool]

end Interpretation

end BlockAsm
