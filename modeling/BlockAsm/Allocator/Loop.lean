import BlockAsm.Allocator

/-!
Loop groups. A counted loop keeps its index, limit and step in three consecutive slots and shows its
body the running value in a fourth. The group is kept under the stem of the index name, and every
name of that stem reads the fourth slot from then on, the index included.

The layout reports the names of other stems whose slots it takes over, and the copies that bring the
control values to their slots.
-/

namespace BlockAsm

/-- A slot of a name outside the loop that the group of `stem` takes. -/
structure Takeover where
  stem : String
  slot : Int
  name : String
  deriving DecidableEq, Repr

structure Copy where
  target : Int
  source : Operand
  token : Token
  deriving Repr

structure LoopLayout where
  stem : String
  base : Int
  copies : List Copy
  overwritten : List String
  deriving Repr

namespace Allocator

def groupBase (a : Allocator) : Operand → Except Failure (Option Int)
  | .register name => (nameText name).map fun s => a.group? (a.stem s)
  | _ => .ok none

def rangeNames : List Operand → Except Failure (List Name)
  | [] => .ok []
  | .register v :: rest =>
    match nameOf v with
    | .ok n => (rangeNames rest).map (n :: ·)
    | .error f => .error f
  | _ :: rest => rangeNames rest

/-- The bindings outside the range whose slots a group at `base` is going to write. -/
def crossed (a : Allocator) (base : Int) (range : List Name) : Table Name Int :=
  a.bindings.filter fun b => decide (base < b.2 ∧ b.2 ≤ base + 3) && !b.1.among range

/-- The takeover of a crossed binding by the loop of a stem; names of that stem share its slots. -/
def takeover? (a : Allocator) (stem : String) (b : Name × Int) : Option Takeover :=
  match b.1.text? with
  | some s => if a.stem s = stem then none else some ⟨stem, b.2, s⟩
  | none => none

/-- The slots that a group at `base` takes from names outside its loop, as far as they are texts. -/
def takeovers (a : Allocator) (stem : String) (base : Int) (range : List Name) : List Takeover :=
  ((a.crossed base range).takeWhile fun b => b.1.text?.isSome).filterMap (a.takeover? stem)

/-- A crossed name that is no text, so that nothing tells whether it is of the loop. -/
def stemless? (a : Allocator) (base : Int) (range : List Name) : Option Name :=
  ((a.crossed base range).find? fun b => b.1.text?.isNone).map Prod.fst

def livesAt (a : Allocator) : Operand → Except Failure (Option Token)
  | .constant index => .ok (some (.constant index))
  | .upvalue index => .ok (some (.upvalue index))
  | .register name => (a.peekValue name).map fun slot => slot.map .register
  | .other v => refuse (.unresolvable (.other v))

def copyTo (source : Operand) (target : Int) (token : Option Token) : List Copy :=
  match token with
  | none => []
  | some (.register slot) =>
    if slot = target then [] else [⟨target, source, .register slot⟩]
  | some token => [⟨target, source, token⟩]

def copies (a : Allocator) : List (Operand × Int) → Except Failure (List Copy)
  | [] => .ok []
  | (o, target) :: rest =>
    match a.livesAt o with
    | .error f => .error f
    | .ok token => (a.copies rest).map (copyTo o target token ++ ·)

def pin (a : Allocator) (o : Operand) (slot : Int) : Allocator :=
  match o with
  | .register v =>
    match Name.of? v with
    | some n => a.force n slot
    | none => a
  | _ => a

/-- Forces those of the names that have the stem and are outside the range; a name that is no text
ends it. -/
def gather (a : Allocator) (stem : String) (range : List Name) (slot : Int) :
    List Name → Allocator × Except Failure Unit
  | [] => (a, .ok ())
  | name :: rest =>
    if name.among range then a.gather stem range slot rest
    else
      match name.text? with
      | none => (a, .error (.fault (.nameNotText name.value)))
      | some s =>
        if a.stem s = stem then (a.force name slot).gather stem range slot rest
        else a.gather stem range slot rest

def occupyGroup (a : Allocator) (index : String) (limit step : Operand) (base : Int)
    (range : List Name) : Allocator × Except Failure (List Copy) :=
  let held := a.reserve base groupSize
  match held.copies [(.register (.str index), base), (limit, base + 1), (step, base + 2)] with
  | .error f => (held, .error f)
  | .ok copies =>
    let pinned := ((held.force (.ofText index) base).pin limit (base + 1)).pin step (base + 2)
    let grouped := pinned.setGroup (.ofText (a.stem index)) base
    match grouped.gather (a.stem index) range (base + 3) grouped.names with
    | (b, .ok ()) => (b, .ok copies)
    | (b, .error f) => (b, .error f)

def layOutNamed (a : Allocator) (index : String) (limit step : Operand) :
    Allocator × List Takeover × Except Failure LoopLayout :=
  match rangeNames [limit, step] with
  | .error f => (a, [], .error f)
  | .ok range =>
    let base := (a.lookup (.ofText index)).getD a.nextFree
    let stem := a.stem index
    let taken := a.takeovers stem base range
    match a.stemless? base range with
    | some n => (a, taken, .error (.fault (.nameNotText n.value)))
    | none =>
      match a.occupyGroup index limit step base range with
      | (b, .error f) => (b, taken, .error f)
      | (b, .ok copies) => (b, taken, .ok ⟨stem, base, copies, taken.map Takeover.name⟩)

/-- Lays out the group of a loop. The takeovers come with a failure too, if it arose after them. -/
def layOut (a : Allocator) (index limit step : Operand) :
    Allocator × List Takeover × Except Failure LoopLayout :=
  match index with
  | .register (.str name) => a.layOutNamed name limit step
  | .register v => (a, [], .error (.fault (.nameNotText v)))
  | o => (a, [], refuse (.loopIndexNotARegister o))

end Allocator

end BlockAsm
