import BlockAsm.Failure

/-!
The checks that a function has to pass before it is lowered: it has blocks, its pools are lists, its
labels are present and different, and its items are instructions with a tag and object metadata. The
first violation is reported.
-/

namespace BlockAsm.Check

def refuseIn {α : Type} (label : Value) (c : Complaint) : Except Failure α :=
  .error (.refused { complaint := c, block := Diagnostic.placeOf label })

def item (label : Value) : Item → Except Failure Unit
  | .other v => refuseIn label (.itemNotAnInstruction v)
  | .instruction i =>
    match i.tag with
    | .str s =>
      if s.isEmpty then refuseIn label (.tagMissing i)
      else match i.metadata with
        | .object _ => .ok ()
        | _ => refuseIn label (.metadataNotAnObject i)
    | _ => refuseIn label (.tagMissing i)

def items (label : Value) : List Item → Except Failure Unit
  | [] => .ok ()
  | i :: rest => do
    item label i
    items label rest

/-- Checks the blocks after those whose labels are `seen`. -/
def blocks (seen : List Value.Key) : List Block → Except Failure Unit
  | [] => .ok ()
  | b :: rest =>
    if !b.label.truthy then refuse .blockUnlabelled
    else match b.label.key? with
      | none => .error (.fault (.labelNotScalar b.label))
      | some key =>
        if key ∈ seen then refuse (.labelRepeated b.label)
        else do
          items b.label b.items
          blocks (key :: seen) rest

def pool (f : Function) : Except Failure Unit :=
  match f.consts with
  | .list _ => .ok ()
  | _ => refuse .poolNotAList

def upvalues (f : Function) : Except Failure Unit :=
  match f.upvalues with
  | .declared _ => .ok ()
  | .other _ => refuse .upvaluesNotAList

def function (f : Function) : Except Failure Unit :=
  if f.blocks.isEmpty then refuse (.noBlocks f.name)
  else do
    pool f
    upvalues f
    blocks [] f.blocks

end BlockAsm.Check
