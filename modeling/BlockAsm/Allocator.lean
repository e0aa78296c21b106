import BlockAsm.Code.Line
import BlockAsm.Failure
import BlockAsm.Name

/-!
Slots for named registers. Names are bound first fit: a name without a slot takes the least slot that
was never occupied, by a name or by a reservation. A name whose stem has a loop group takes the
group's last slot instead. Occupied slots stay occupied.

Only texts are bound this way, because only they have stems. Any other name has a slot only if it was
forced to one.
-/

namespace BlockAsm

/-- The slots of a loop group: index, limit, step, and the value that the body sees. -/
def groupSize : Nat := 4

structure Allocator where
  stem : String → String
  /-- Slots of names, in the order in which the names were first bound. -/
  bindings : Table Name Int := []
  /-- Slots that a name or a reservation has held. -/
  occupied : List Int := []
  /-- Slots that only a reservation holds. -/
  placeholders : List Int := []
  groups : Table Name Int := []
  scratchCount : Nat := 0

namespace Allocator

def nameOf (v : Value) : Except Failure Name :=
  match Name.of? v with
  | some n => .ok n
  | none => .error (.fault (.nameNotScalar v))

def nameText (name : Value) : Except Failure String :=
  match name with
  | .str s => .ok s
  | v => .error (.fault (.nameNotText v))

def lookup (a : Allocator) (name : Name) : Option Int := Table.get? a.bindings name.key

def names (a : Allocator) : List Name := Table.names a.bindings

def group? (a : Allocator) (stem : String) : Option Int :=
  Table.get? a.groups (Name.ofText stem).key

def bodySlot? (a : Allocator) (name : String) : Option Int := (a.group? (a.stem name)).map (· + 3)

/-- The slot a name has or would take from its stem's group. -/
def peek (a : Allocator) (name : String) : Option Int :=
  (a.lookup (.ofText name)).or (a.bodySlot? name)

/-- The first of `n, n + 1, …` that is free, in at most `tries` steps. -/
def firstFree (occupied : List Int) : Nat → Nat → Nat
  | 0, n => n
  | tries + 1, n => if occupied.contains (n : Int) then firstFree occupied tries (n + 1) else n

/-- The least slot that was never occupied. As many tries as there are occupied slots suffice. -/
def nextFree (a : Allocator) : Int := firstFree a.occupied a.occupied.length 0

/-- One past the highest occupied slot. -/
def used (a : Allocator) : Int :=
  match a.occupied with
  | [] => 0
  | s :: rest => rest.foldl max s + 1

def isPlaceholder (a : Allocator) (slot : Int) : Bool := a.placeholders.contains slot

def occupy (a : Allocator) (slot : Int) : List Int :=
  if a.occupied.contains slot then a.occupied else a.occupied ++ [slot]

def bind (a : Allocator) (name : Name) (slot : Int) : Allocator :=
  { a with
    bindings := Table.set a.bindings name slot
    occupied := a.occupy slot
    placeholders := a.placeholders.filter (· != slot) }

/-- The slot for a name, binding it on first sight. -/
def place (a : Allocator) (name : String) : Int × Allocator :=
  match a.peek name with
  | some slot =>
    if (a.lookup (.ofText name)).isSome then (slot, a) else (slot, a.bind (.ofText name) slot)
  | none => (a.nextFree, a.bind (.ofText name) a.nextFree)

def hold (a : Allocator) (slot : Int) : Allocator :=
  if a.occupied.contains slot then a
  else { a with occupied := a.occupied ++ [slot], placeholders := a.placeholders ++ [slot] }

/-- Holds `length` slots from `start` on, so that first fit passes them by. -/
def reserve (a : Allocator) (start : Int) : Nat → Allocator
  | 0 => a
  | length + 1 => (a.hold start).reserve (start + 1) length

/-- Binds a name to a slot, whatever it was bound to. -/
def force (a : Allocator) (name : Name) (slot : Int) : Allocator :=
  if a.lookup name = some slot then a else a.bind name slot

def setGroup (a : Allocator) (stem : Name) (base : Int) : Allocator :=
  { a with groups := Table.set a.groups stem base }

def scratchName (n : Nat) : String := "%tmp" ++ toString n

def firstScratch (bindings : Table Name Int) : Nat → Nat → Nat
  | 0, n => n
  | tries + 1, n =>
    if Table.has bindings (Name.ofText (scratchName n)).key then firstScratch bindings tries (n + 1)
    else n

def scratch (a : Allocator) : Int × Allocator :=
  let n := firstScratch a.bindings a.bindings.length a.scratchCount
  { a with scratchCount := n + 1 }.place (scratchName n)

def holdsOnly (a : Allocator) (slot : Value) : Except Failure Bool :=
  (nameOf slot).map fun n =>
    match n.key with
    | .int s => a.isPlaceholder s
    | _ => false

def lookupValue (a : Allocator) (name : Value) : Except Failure (Option Int) :=
  (nameOf name).map a.lookup

def peekValue (a : Allocator) (name : Value) : Except Failure (Option Int) :=
  match a.lookupValue name with
  | .ok none => (nameText name).map a.peek
  | known => known

def placeValue (a : Allocator) (name : Value) : Except Failure (Int × Allocator) :=
  match a.lookupValue name with
  | .error f => .error f
  | .ok (some slot) => .ok (slot, a)
  | .ok none => (nameText name).map a.place

def seed (a : Allocator) : List Value → Allocator × Except Failure Unit
  | [] => (a, .ok ())
  | v :: rest =>
    match a.placeValue v with
    | .ok (_, b) => b.seed rest
    | .error f => (a, .error f)

/-- The token of an operand. A failure binds nothing. -/
def resolve (a : Allocator) : Operand → Except Failure (Token × Allocator)
  | .constant index => .ok (.constant index, a)
  | .upvalue index => .ok (.upvalue index, a)
  | .register name =>
    match a.placeValue name with
    | .ok (slot, b) => .ok (.register slot, b)
    | .error f => .error f
  | .other v => refuse (.unresolvable (.other v))

/-- The tokens of operands, from left to right; what was bound before a failure stays bound. -/
def resolveAll (a : Allocator) : List Operand → Allocator × Except Failure (List Token)
  | [] => (a, .ok [])
  | o :: rest =>
    match a.resolve o with
    | .error f => (a, .error f)
    | .ok (t, b) =>
      match b.resolveAll rest with
      | (c, .ok ts) => (c, .ok (t :: ts))
      | (c, .error f) => (c, .error f)

end Allocator

end BlockAsm
