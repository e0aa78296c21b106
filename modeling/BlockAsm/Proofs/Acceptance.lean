import BlockAsm.Proofs.Layout

/-!
Which instructions are accepted. What is objected to in an instruction is read off the instruction
alone, in the order in which its parts are asked for. Lowering answers with the first objection, or
succeeds if there is none, whatever was lowered before.
-/

namespace BlockAsm

/-- There is a result if nothing is objected to; else the first objection is the answer. -/
def Settles {α : Type} (r : Except Failure α) : List Diagnostic → Prop
  | [] => ∃ a, r = .ok a
  | d :: _ => r = .error (.refused d)

theorem settles_cons_iff {α : Type} {r : Except Failure α} {d : Diagnostic}
    {rest : List Diagnostic} : Settles r (d :: rest) ↔ r = .error (.refused d) := Iff.rfl

namespace Settles

variable {α β : Type} {r : Except Failure α} {xs ys : List Diagnostic}

theorem bind {next : α → Except Failure β} (first : Settles r xs)
    (second : ∀ a, r = .ok a → Settles (next a) ys) : Settles (r >>= next) (xs ++ ys) := by
  cases xs with
  | nil =>
    obtain ⟨a, rfl⟩ := first
    exact second a rfl
  | cons d rest =>
    cases first
    rfl

theorem map (f : α → β) (settled : Settles r xs) : Settles (r.map f) xs := by
  cases xs with
  | nil =>
    obtain ⟨a, rfl⟩ := settled
    exact ⟨f a, rfl⟩
  | cons d rest =>
    cases settled
    rfl

end Settles

namespace Operand

def objections : Operand → List Diagnostic
  | .other v => [{ complaint := .unresolvable (.other v) }]
  | _ => []

theorem objections_register (name : Value) : (register name).objections = [] := rfl

theorem objections_eq_nil_iff {o : Operand} (named : o.Named) :
    o.objections = [] ↔ o.Resolvable := by
  cases o with
  | register name =>
    obtain ⟨s, rfl⟩ := named
    simp [objections, Resolvable]
  | _ => simp [objections, Resolvable]

theorem Resolvable.objections {o : Operand} (resolvable : o.Resolvable) : o.objections = [] :=
  (objections_eq_nil_iff resolvable.named).mpr resolvable

@[simp] theorem named_constant (index : Value) : (constant index).Named := trivial

theorem Named.ofBareName {o : Operand} (named : o.Named) : o.ofBareName.Named := by
  cases o with
  | other v =>
    cases v with
    | str s => exact ⟨s, rfl⟩
    | _ => trivial
  | _ => exact named

end Operand

namespace Allocator

theorem resolve_settles (a : Allocator) {o : Operand} (named : o.Named) :
    Settles (a.resolve o) o.objections := by
  cases o with
  | register name =>
    obtain ⟨s, rfl⟩ := named
    rw [resolve, placeValue_str]
    exact ⟨_, rfl⟩
  | other v => rfl
  | _ => exact ⟨_, rfl⟩

theorem resolveAll_settles (a : Allocator) {operands : List Operand}
    (named : ∀ o ∈ operands, o.Named) :
    Settles (a.resolveAll operands).2 (operands.flatMap Operand.objections) := by
  induction operands generalizing a with
  | nil => exact ⟨[], rfl⟩
  | cons o rest ih =>
    have stepped : (a.resolveAll (o :: rest)).2 =
        a.resolve o >>= fun p => (p.2.resolveAll rest).2.map (p.1 :: ·) := by
      rw [resolveAll]
      cases resolved : a.resolve o with
      | error f => rfl
      | ok p =>
        change _ = (p.2.resolveAll rest).2.map (p.1 :: ·)
        rcases others : p.2.resolveAll rest with ⟨b, _ | ts⟩ <;> simp only [others] <;> rfl
    rw [stepped, List.flatMap_cons]
    refine (a.resolve_settles (named o (by simp))).bind fun p _ => ?_
    exact (ih p.2 fun q hq => named q (by simp [hq])).map _

theorem livesAt_settles (a : Allocator) {o : Operand} (named : o.Named) :
    Settles (a.livesAt o) o.objections := by
  by_cases resolvable : o.Resolvable
  · rw [(Operand.objections_eq_nil_iff named).mpr resolvable]
    exact ⟨_, a.livesAt_of_resolvable resolvable⟩
  · cases o with
    | other v => rfl
    | register name =>
      obtain ⟨s, rfl⟩ := named
      exact absurd trivial resolvable
    | _ => exact absurd trivial resolvable

theorem copies_settles (a : Allocator) {controls : List (Operand × Int)}
    (named : ∀ p ∈ controls, p.1.Named) :
    Settles (a.copies controls) (controls.flatMap fun p => p.1.objections) := by
  induction controls with
  | nil => exact ⟨[], rfl⟩
  | cons p rest ih =>
    have stepped : a.copies (p :: rest) =
        a.livesAt p.1 >>= fun token => (a.copies rest).map (copyTo p.1 p.2 token ++ ·) := by
      rw [copies]
      cases a.livesAt p.1 <;> rfl
    rw [stepped, List.flatMap_cons]
    refine (a.livesAt_settles (named p (by simp))).bind fun token _ => ?_
    exact (ih fun q hq => named q (by simp [hq])).map _

end Allocator

namespace Context

open Allocator

theorem returnStep_settles (c : Context) {o : Operand} (named : o.Named) :
    Settles (c.returnStep o) o.objections := by
  cases o with
  | constant index => exact ⟨_, rfl⟩
  | _ =>
    rw [returnStep_of_varying (by simp)]
    exact (c.allocator.resolve_settles named).map _

theorem resolveReturned_settles (c : Context) {operands : List Operand}
    (named : ∀ o ∈ operands, o.Named) :
    Settles (c.resolveReturned operands).2 (operands.flatMap Operand.objections) := by
  induction operands generalizing c with
  | nil => exact ⟨[], rfl⟩
  | cons o rest ih =>
    have stepped : (c.resolveReturned (o :: rest)).2 =
        c.returnStep o >>= fun p => (p.2.resolveReturned rest).2.map (p.1 :: ·) := by
      rw [resolveReturned_cons]
      cases c.returnStep o <;> rfl
    rw [stepped, List.flatMap_cons]
    refine (c.returnStep_settles (named o (by simp))).bind fun p _ => ?_
    exact (ih p.2 fun q hq => named q (by simp [hq])).map _

end Context

def Operand.indexObjections : Operand → List Diagnostic
  | .register _ => []
  | o => [{ complaint := .loopIndexNotARegister o }]

namespace Context

open Allocator

/-- The limit and step of a loop are looked at once its slots are reserved, and in this order. -/
theorem enterLoop_settles {c : Context} (wf : c.allocator.WellFormed) {index limit step : Operand}
    (hi : index.Named) (hl : limit.Named) (hs : step.Named) (target : Value) :
    Settles (c.enterLoop index limit step target).2
      (index.indexObjections ++ (limit.objections ++ step.objections)) := by
  cases index with
  | register name =>
    obtain ⟨s, rfl⟩ := hi
    have range : ∀ o ∈ [limit, step], o.Named := by simp [hl, hs]
    have named : ∀ p ∈ c.allocator.controls s limit step, p.1.Named :=
      c.allocator.forall_controls.mpr ⟨⟨s, rfl⟩, hl, hs⟩
    have copied := (c.allocator.reserve (c.allocator.entrySlot s) groupSize).copies_settles named
    simp only [controls, List.flatMap_cons, List.flatMap_nil, List.append_nil,
      Operand.objections_register, List.nil_append] at copied
    rw [Operand.indexObjections, List.nil_append]
    cases objected : limit.objections ++ step.objections with
    | nil =>
      rw [List.append_eq_nil_iff, Operand.objections_eq_nil_iff hl,
        Operand.objections_eq_nil_iff hs] at objected
      obtain ⟨d, entered, -⟩ := enterLoop_of_resolvable wf s objected.1 objected.2 target
      exact ⟨(), by rw [entered]⟩
    | cons d rest =>
      rw [objected] at copied
      obtain ⟨names, ranged⟩ := rangeNames_of_named range
      have laid := wf.layOut_of_copies ranged copied
      simp only [settles_cons_iff, enterLoop, laid]
  | _ => rfl

theorem stepLoop_settles (c : Context) {index : Operand} (named : index.Named) (body : Value) :
    Settles (c.stepLoop index body).2 index.objections := by
  cases index with
  | register name =>
    obtain ⟨s, rfl⟩ := named
    simp only [stepLoop, groupBase, nameText, Except.map, resolve, placeValue_str]
    cases c.allocator.group? (c.allocator.stem s) <;> exact ⟨(), rfl⟩
  | other v => rfl
  | _ => exact ⟨(), rfl⟩

end Context

def ifAbsent {α : Type} (part : Option α) (c : Complaint) : List Diagnostic :=
  match part with
  | some _ => []
  | none => [{ complaint := c }]

def demand {α : Type} (part : Option α) (c : Complaint) : Except Failure α :=
  match part with
  | some p => .ok p
  | none => refuse c

theorem demand_settles {α : Type} (part : Option α) (c : Complaint) :
    Settles (demand part c) (ifAbsent part c) := by
  cases part with
  | none => rfl
  | some p => exact ⟨p, rfl⟩

theorem demand_eq_ok {α : Type} {part : Option α} {c : Complaint} {p : α}
    (h : demand part c = .ok p) : part = some p := by
  cases part <;> cases h
  rfl

theorem ifAbsent_eq_nil_iff {α : Type} {part : Option α} {c : Complaint} :
    ifAbsent part c = [] ↔ ∃ p, part = some p := by
  cases part <;> simp [ifAbsent]

def unresolved (parts : List (Option Operand)) : List Diagnostic :=
  parts.reduceOption.flatMap Operand.objections

theorem unresolved_nil : unresolved [] = [] := rfl

theorem unresolved_singleton (o : Operand) : unresolved [some o] = o.objections := by
  simp [unresolved]

theorem unresolved_cons_eq_nil_iff {part : Option Operand} {rest : List (Option Operand)} :
    unresolved (part :: rest) = [] ↔
      (∀ o, part = some o → o.objections = []) ∧ unresolved rest = [] := by
  cases part <;> simp [unresolved]

namespace Instruction

/-- What a load takes: its first operand, or the constant in its metadata. -/
def loaded? (i : Instruction) : Option Operand :=
  i.args.head?.or ((i.field? "c").map .constant)

def environment (i : Instruction) : Operand := i.args.headD (.upvalue (.int 0))

def given? (i : Instruction) (name : String) : Option Value :=
  (i.field? name).filter fun v => !v.isNull

/-- The target of a loop entry. An older name counts only if the newer is not there at all. -/
def branch? (i : Instruction) : Option Value :=
  ((i.field? "target").or (i.field? "loop")).filter fun v => !v.isNull

/-- The operand at a place where a bare name stands for a register. -/
def coerced? (i : Instruction) (n : Nat) : Option Operand := (i.arg? n).map Operand.ofBareName

def lacksDest (i : Instruction) : List Diagnostic := ifAbsent i.dest (.destinationMissing i.tag)

def lacks (i : Instruction) (n : Nat) (role : String) : List Diagnostic :=
  ifAbsent (i.arg? n) (.operandMissing i.tag role)

def objectionsAs (i : Instruction) : Option Opcode → List Diagnostic
  | some .loadk =>
    ifAbsent i.loaded? (.operandMissing i.tag "constant") ++ i.lacksDest ++
      unresolved [i.dest, i.loaded?]
  | some .move => i.lacks 0 "source" ++ i.lacksDest ++ unresolved [i.dest, i.arg? 0]
  | some .gettabup => i.lacksDest ++ unresolved [i.dest, i.environment]
  | some .settabup =>
    i.lacks 0 "upvalue" ++ i.lacks 1 "key" ++ i.lacks 2 "value" ++
      unresolved [i.arg? 0, i.coerced? 1, i.coerced? 2]
  | some .newtable => i.lacksDest ++ unresolved [i.dest]
  | some .settable =>
    i.lacksDest ++ unresolved [i.dest] ++ i.lacks 0 "key" ++ i.lacks 1 "value" ++
      unresolved [i.coerced? 0, i.coerced? 1]
  | some .call => i.lacks 0 "callee" ++ unresolved [i.arg? 0]
  | some .ret => i.args.flatMap Operand.objections
  | some (.arith _) =>
    i.lacks 0 "left" ++ i.lacks 1 "right" ++ i.lacksDest ++
      unresolved [i.dest, i.arg? 0, i.arg? 1]
  | some .forprep =>
    ifAbsent i.branch? (.targetMissing i.tag) ++ i.lacks 0 "index" ++ i.lacks 1 "limit" ++
      i.lacks 2 "step" ++ (i.arg? 0).elim [] Operand.indexObjections ++
      unresolved [i.arg? 1, i.arg? 2]
  | some .forloop =>
    ifAbsent (i.given? "body") (.bodyMissing i.tag) ++ i.lacks 0 "index" ++ unresolved [i.arg? 0]
  | none => ifAbsent (i.given? "raw") (.opcodeUnknown i.tag)

def objections (i : Instruction) : List Diagnostic :=
  match i.opcode? with
  | .ok o => i.objectionsAs o
  | .error _ => []

/-- An instruction whose parts are of the kinds that they are declared to be. -/
structure Typed (i : Instruction) : Prop where
  tag : ∃ s, i.tag = .str s
  metadata : ∃ fields, i.metadata = .object fields
  payload : ∀ v, i.given? "raw" = some v → ∃ s, v = .str s
  dest : ∀ o, i.dest = some o → o.Named
  args : ∀ o ∈ i.args, o.Named

theorem Typed.opcode? {i : Instruction} (typed : i.Typed) : ∃ o, i.opcode? = .ok o := by
  obtain ⟨s, tagged⟩ := typed.tag
  exact ⟨Opcode.ofTag? s, by simp [Instruction.opcode?, tagged]⟩

theorem arg?_mem {i : Instruction} {n : Nat} {o : Operand} (found : i.arg? n = some o) :
    o ∈ i.args := by
  unfold arg? at found
  split at found
  · cases found
  · exact List.mem_of_getElem? found

theorem Typed.arg? {i : Instruction} (typed : i.Typed) {n : Nat} {o : Operand}
    (found : i.arg? n = some o) : o.Named :=
  typed.args o (arg?_mem found)

theorem Typed.loaded? {i : Instruction} (typed : i.Typed) {o : Operand}
    (found : i.loaded? = some o) : o.Named := by
  unfold Instruction.loaded? at found
  cases given : i.args with
  | nil =>
    rw [given, List.head?_nil, Option.none_or, Option.map_eq_some_iff] at found
    obtain ⟨v, -, rfl⟩ := found
    trivial
  | cons first rest =>
    rw [given, List.head?_cons, Option.some_or, Option.some.injEq] at found
    exact typed.args o (by simp [given, found])

theorem Typed.environment {i : Instruction} (typed : i.Typed) : i.environment.Named := by
  unfold Instruction.environment
  cases given : i.args with
  | nil => trivial
  | cons first rest => exact typed.args first (by simp [given])

theorem read_of_object {i : Instruction} {fields : Fields} (object : i.metadata = .object fields)
    (name : String) : Fields.read fields name = (i.field? name).getD .null := by
  simp only [Fields.read, field?, object]

theorem arg_eq_demand (i : Instruction) (n : Nat) (role : String) :
    i.arg n role = demand (i.arg? n) (.operandMissing i.tag role) := by
  unfold arg
  cases i.arg? n <;> rfl

theorem target_eq_demand (i : Instruction) :
    i.target = demand i.dest (.destinationMissing i.tag) := by
  unfold target
  cases i.dest <;> rfl

theorem loadRecipe_eq_demand {i : Instruction} (typed : i.Typed) : i.loadRecipe = (do
    let source ← demand i.loaded? (.operandMissing i.tag "constant")
    let dest ← i.target
    .ok (.line .loadk [dest, source] [])) := by
  obtain ⟨fields, object⟩ := typed.metadata
  unfold loadRecipe
  cases given : i.args with
  | nil =>
    simp only [loaded?, field?, namedConstant, given, object, List.head?_nil, Option.none_or]
    cases Table.get? fields "c" <;> rfl
  | cons o rest =>
    simp only [loaded?, given, List.head?_cons, Option.some_or]
    rfl

theorem enterRecipe_eq_demand {i : Instruction} (typed : i.Typed) : i.enterRecipe = (do
    let target ← demand i.branch? (.targetMissing i.tag)
    let index ← i.arg 0 "index"
    let limit ← i.arg 1 "limit"
    let step ← i.arg 2 "step"
    .ok (.enterLoop index limit step target)) := by
  obtain ⟨fields, object⟩ := typed.metadata
  have named : fieldOr fields "target" "loop" .null =
      ((i.field? "target").or (i.field? "loop")).getD .null := by
    simp only [fieldOr, field?, object]
    cases Table.get? fields "target" <;> rfl
  simp only [enterRecipe, fields_of_object object, Except.ok_bind, named, branch?]
  rcases (i.field? "target").or (i.field? "loop") with _ | v
  · rfl
  · cases v <;> rfl

theorem stepRecipe_eq_demand {i : Instruction} (typed : i.Typed) : i.stepRecipe = (do
    let body ← demand (i.given? "body") (.bodyMissing i.tag)
    let index ← i.arg 0 "index"
    .ok (.stepLoop index body)) := by
  obtain ⟨fields, object⟩ := typed.metadata
  simp only [stepRecipe, fields_of_object object, Except.ok_bind, read_of_object object, given?]
  rcases i.field? "body" with _ | v
  · rfl
  · cases v <;> rfl

theorem rawRecipe_eq_demand {i : Instruction} (typed : i.Typed) : i.rawRecipe = (do
    let payload ← demand (i.given? "raw") (.opcodeUnknown i.tag)
    .ok (.verbatim payload)) := by
  obtain ⟨fields, object⟩ := typed.metadata
  simp only [rawRecipe, fields_of_object object, Except.ok_bind, read_of_object object, given?]
  rcases i.field? "raw" with _ | v
  · rfl
  · cases v <;> rfl

theorem given?_of_verbatim {i : Instruction} (typed : i.Typed) {payload : Value}
    (made : i.recipe = .verbatim payload) : i.given? "raw" = some payload := by
  rcases i.recipe_kinds with ⟨_, _, other⟩ | ⟨_, _, _, _, other⟩ | ⟨_, other⟩ |
    ⟨_, _, _, _, _, _, _, other⟩ | ⟨_, _, _, _, _, other⟩ | ⟨unknown, _⟩
  · cases made.symm.trans other
  · cases made.symm.trans other
  · cases made.symm.trans other
  · cases made.symm.trans other
  · cases made.symm.trans other
  · have raw : i.recipe = settle i.rawRecipe := by
      simp only [recipe, unknown]
      rfl
    rw [raw, rawRecipe_eq_demand typed] at made
    cases found : i.given? "raw" with
    | none =>
      rw [found] at made
      cases made
    | some v =>
      rw [found] at made
      cases made
      rfl

end Instruction

namespace Context

open Instruction

def attempt (c : Context) (x : Except Failure Recipe) : Except Failure Unit :=
  x >>= fun r => (c.perform r).2

theorem attempt_ok (c : Context) (r : Recipe) : c.attempt (.ok r) = (c.perform r).2 := rfl

theorem perform_settle (c : Context) (x : Except Failure Recipe) :
    (c.perform (settle x)).2 = c.attempt x := by
  cases x <;> rfl

theorem attempt_bind {α : Type} (c : Context) (x : Except Failure α)
    (next : α → Except Failure Recipe) :
    c.attempt (x >>= next) = x >>= fun a => c.attempt (next a) := by
  cases x <;> rfl

theorem line_settles (c : Context) (o : Opcode) (operands : List Operand) (immediates : List Value)
    (named : ∀ p ∈ operands, p.Named) :
    Settles (c.attempt (.ok (.line o operands immediates)))
      (operands.flatMap Operand.objections) := by
  have resolved := (c.allocator.resolveAll_settles named).map fun _ => ()
  have carried : c.attempt (.ok (.line o operands immediates)) =
      (c.allocator.resolveAll operands).2.map fun _ => () := by
    rw [attempt_ok]
    rcases answer : c.allocator.resolveAll operands with ⟨a, _ | ts⟩ <;>
      simp only [perform, answer] <;> rfl
  rwa [carried]

variable {i : Instruction}

/-- A failure comes after those of the operands that are resolved before it. -/
theorem abort_settles (c : Context) {operands : List Operand} (named : ∀ p ∈ operands, p.Named)
    (d : Diagnostic) (more : List Diagnostic) :
    Settles (c.attempt (.ok (.abort operands (.refused d))))
      (operands.flatMap Operand.objections ++ d :: more) := by
  have carried : c.attempt (.ok (.abort operands (.refused d))) =
      (c.allocator.resolveAll operands).2 >>= fun _ => .error (.refused d) := by
    rw [attempt_ok]
    rcases answer : c.allocator.resolveAll operands with ⟨a, _ | ts⟩ <;>
      simp only [perform, answer] <;> rfl
  rw [carried]
  exact (c.allocator.resolveAll_settles named).bind fun _ _ => rfl

theorem load_settles (c : Context) (typed : i.Typed) :
    Settles (c.attempt i.loadRecipe) (i.objectionsAs (some .loadk)) := by
  simp only [loadRecipe_eq_demand typed, target_eq_demand, attempt_bind, objectionsAs,
    List.append_assoc]
  refine (demand_settles ..).bind fun source hs => (demand_settles ..).bind fun dest hd => ?_
  rw [demand_eq_ok hs, demand_eq_ok hd]
  apply line_settles c .loadk _ []
  simp [typed.dest dest (demand_eq_ok hd), typed.loaded? (demand_eq_ok hs)]

theorem move_settles (c : Context) (typed : i.Typed) :
    Settles (c.attempt i.moveRecipe) (i.objectionsAs (some .move)) := by
  simp only [moveRecipe, arg_eq_demand, target_eq_demand, attempt_bind, objectionsAs,
    List.append_assoc]
  refine (demand_settles ..).bind fun source hs => (demand_settles ..).bind fun dest hd => ?_
  rw [demand_eq_ok hs, demand_eq_ok hd]
  apply line_settles c .move _ []
  simp [typed.dest dest (demand_eq_ok hd), typed.arg? (demand_eq_ok hs)]

theorem getField_settles (c : Context) (typed : i.Typed) :
    Settles (c.attempt i.getFieldRecipe) (i.objectionsAs (some .gettabup)) := by
  obtain ⟨fields, object⟩ := typed.metadata
  simp only [getFieldRecipe, fields_of_object object, Except.ok_bind, target_eq_demand, attempt_bind,
    objectionsAs]
  refine (demand_settles ..).bind fun dest hd => ?_
  rw [demand_eq_ok hd]
  exact line_settles c .gettabup [dest, i.environment, _] []
    (by simp [typed.dest dest (demand_eq_ok hd), typed.environment])

theorem setField_settles (c : Context) (typed : i.Typed) :
    Settles (c.attempt i.setFieldRecipe) (i.objectionsAs (some .settabup)) := by
  simp only [setFieldRecipe, arg_eq_demand, attempt_bind, objectionsAs, List.append_assoc, coerced?]
  refine (demand_settles ..).bind fun upvalue hu => (demand_settles ..).bind fun key hk =>
    (demand_settles ..).bind fun value hv => ?_
  rw [demand_eq_ok hu, demand_eq_ok hk, demand_eq_ok hv]
  apply line_settles c .settabup _ []
  simp [typed.arg? (demand_eq_ok hu), (typed.arg? (demand_eq_ok hk)).ofBareName,
    (typed.arg? (demand_eq_ok hv)).ofBareName]

theorem newTable_settles (c : Context) (typed : i.Typed) :
    Settles (c.attempt i.newTableRecipe) (i.objectionsAs (some .newtable)) := by
  obtain ⟨fields, object⟩ := typed.metadata
  simp only [newTableRecipe, fields_of_object object, Except.ok_bind, target_eq_demand, attempt_bind,
    objectionsAs]
  refine (demand_settles ..).bind fun dest hd => ?_
  rw [demand_eq_ok hd]
  apply line_settles c .newtable
  simp [typed.dest dest (demand_eq_ok hd)]

theorem setTable_settles (c : Context) (typed : i.Typed) :
    Settles (c.attempt i.setTableRecipe) (i.objectionsAs (some .settable)) := by
  simp only [setTableRecipe, arg_eq_demand, target_eq_demand, attempt_bind, objectionsAs,
    List.append_assoc, coerced?]
  refine (demand_settles ..).bind fun table ht => ?_
  have named : ∀ p ∈ [table], p.Named := by simp [typed.dest table (demand_eq_ok ht)]
  rw [demand_eq_ok ht, lacks, lacks]
  -- A missing key or value is noticed only once the table is resolved.
  cases hk : i.arg? 0 with
  | none => exact c.abort_settles named _ _
  | some key =>
    cases hv : i.arg? 1 with
    | none => exact c.abort_settles named _ _
    | some value =>
      rw [unresolved_singleton]
      exact line_settles c .settable [table, key.ofBareName, value.ofBareName] []
        (by simp [typed.dest table (demand_eq_ok ht), (typed.arg? hk).ofBareName,
          (typed.arg? hv).ofBareName])

theorem call_settles (c : Context) (typed : i.Typed) :
    Settles (c.attempt i.callRecipe) (i.objectionsAs (some .call)) := by
  obtain ⟨fields, object⟩ := typed.metadata
  simp only [callRecipe, fields_of_object object, arg_eq_demand, attempt_bind, objectionsAs]
  refine (demand_settles ..).bind fun callee hc => ?_
  rw [demand_eq_ok hc]
  apply line_settles c .call
  simp [typed.arg? (demand_eq_ok hc)]

theorem return_settles (c : Context) (typed : i.Typed) :
    Settles (c.attempt (.ok (.giveBack i.args))) (i.objectionsAs (some .ret)) := by
  have resolved := (c.resolveReturned_settles typed.args).map fun _ => ()
  have carried : c.attempt (.ok (.giveBack i.args)) =
      (c.resolveReturned i.args).2.map fun _ => () := by
    rw [attempt_ok]
    rcases answer : c.resolveReturned i.args with ⟨a, _ | ts⟩ <;>
      simp only [perform, answer] <;> rfl
  rwa [carried]

theorem arith_settles (c : Context) (typed : i.Typed) (a : Arith) :
    Settles (c.attempt (i.arithRecipe a)) (i.objectionsAs (some (.arith a))) := by
  simp only [arithRecipe, arg_eq_demand, target_eq_demand, attempt_bind, objectionsAs,
    List.append_assoc]
  refine (demand_settles ..).bind fun left hl => (demand_settles ..).bind fun right hr =>
    (demand_settles ..).bind fun dest hd => ?_
  rw [demand_eq_ok hl, demand_eq_ok hr, demand_eq_ok hd]
  apply line_settles c (.arith a) _ []
  simp [typed.dest dest (demand_eq_ok hd), typed.arg? (demand_eq_ok hl),
    typed.arg? (demand_eq_ok hr)]

theorem enter_settles {c : Context} (wf : c.allocator.WellFormed) (typed : i.Typed) :
    Settles (c.attempt i.enterRecipe) (i.objectionsAs (some .forprep)) := by
  simp only [enterRecipe_eq_demand typed, arg_eq_demand, attempt_bind, objectionsAs,
    List.append_assoc]
  refine (demand_settles ..).bind fun target _ => (demand_settles ..).bind fun index hi =>
    (demand_settles ..).bind fun limit hl => (demand_settles ..).bind fun step hs => ?_
  rw [demand_eq_ok hi, demand_eq_ok hl, demand_eq_ok hs]
  have settled := enterLoop_settles wf (typed.arg? (demand_eq_ok hi))
    (typed.arg? (demand_eq_ok hl)) (typed.arg? (demand_eq_ok hs)) target
  simpa [unresolved, attempt_ok, perform] using settled

theorem step_settles (c : Context) (typed : i.Typed) :
    Settles (c.attempt i.stepRecipe) (i.objectionsAs (some .forloop)) := by
  simp only [stepRecipe_eq_demand typed, arg_eq_demand, attempt_bind, objectionsAs,
    List.append_assoc]
  refine (demand_settles ..).bind fun body _ => (demand_settles ..).bind fun index hi => ?_
  rw [demand_eq_ok hi, unresolved_singleton]
  exact c.stepLoop_settles (typed.arg? (demand_eq_ok hi)) body

theorem raw_settles (c : Context) (typed : i.Typed) :
    Settles (c.attempt i.rawRecipe) (i.objectionsAs none) := by
  rw [rawRecipe_eq_demand typed, attempt_bind, objectionsAs, ← List.append_nil (ifAbsent _ _)]
  exact (demand_settles ..).bind fun payload _ => ⟨(), rfl⟩

/-- Whether an instruction is lowered, and if not, why, depends on the instruction alone. -/
theorem lower_settles {c : Context} (wf : c.allocator.WellFormed) (typed : i.Typed) :
    Settles (c.lower (.instruction i)).2 i.objections := by
  obtain ⟨tagged, known⟩ := typed.opcode?
  simp only [lower, recipe, perform_settle, objections, known, Except.ok_bind]
  cases tagged with
  | none => exact c.raw_settles typed
  | some o =>
    cases o with
    | loadk => exact c.load_settles typed
    | move => exact c.move_settles typed
    | gettabup => exact c.getField_settles typed
    | settabup => exact c.setField_settles typed
    | newtable => exact c.newTable_settles typed
    | settable => exact c.setTable_settles typed
    | call => exact c.call_settles typed
    | ret => exact c.return_settles typed
    | arith a => exact c.arith_settles typed a
    | forprep => exact enter_settles wf typed
    | forloop => exact c.step_settles typed

end Context

def Supplied (part : Option Operand) : Prop := ∃ o, part = some o ∧ o.Resolvable

theorem supplied_iff {part : Option Operand} (named : ∀ o, part = some o → o.Named) :
    Supplied part ↔ (∃ o, part = some o) ∧ ∀ o, part = some o → o.objections = [] := by
  constructor
  · rintro ⟨o, rfl, resolvable⟩
    refine ⟨⟨o, rfl⟩, ?_⟩
    rintro _ ⟨⟩
    exact resolvable.objections
  · rintro ⟨⟨o, rfl⟩, unobjected⟩
    exact ⟨o, rfl, (Operand.objections_eq_nil_iff (named o rfl)).mp (unobjected o rfl)⟩

namespace Instruction

/-- What an instruction needs, by what its tag stands for. -/
def AcceptedAs (i : Instruction) : Option Opcode → Prop
  | some .loadk => Supplied i.dest ∧ Supplied i.loaded?
  | some .move => Supplied i.dest ∧ Supplied (i.arg? 0)
  | some .gettabup => Supplied i.dest ∧ i.environment.Resolvable
  | some .settabup => Supplied (i.arg? 0) ∧ Supplied (i.coerced? 1) ∧ Supplied (i.coerced? 2)
  | some .newtable => Supplied i.dest
  | some .settable => Supplied i.dest ∧ Supplied (i.coerced? 0) ∧ Supplied (i.coerced? 1)
  | some .call => Supplied (i.arg? 0)
  | some .ret => ∀ o ∈ i.args, o.Resolvable
  | some (.arith _) => Supplied i.dest ∧ Supplied (i.arg? 0) ∧ Supplied (i.arg? 1)
  | some .forprep => (∃ target, i.branch? = some target) ∧
      (∃ name, i.arg? 0 = some (.register name)) ∧ Supplied (i.arg? 1) ∧ Supplied (i.arg? 2)
  | some .forloop => (∃ body, i.given? "body" = some body) ∧ Supplied (i.arg? 0)
  | none => ∃ payload, i.given? "raw" = some payload

def Accepted (i : Instruction) : Prop := ∃ o, i.opcode? = .ok o ∧ i.AcceptedAs o

theorem lacks_eq_nil_iff {i : Instruction} {n : Nat} {role : String} :
    i.lacks n role = [] ↔ ∃ o, i.arg? n = some o := ifAbsent_eq_nil_iff

theorem exists_coerced?_iff {i : Instruction} {n : Nat} :
    (∃ o, i.coerced? n = some o) ↔ ∃ o, i.arg? n = some o := by
  simp [coerced?]

section Typed

variable {i : Instruction} (typed : i.Typed)

include typed

theorem Typed.coerced? {n : Nat} {o : Operand} (found : i.coerced? n = some o) : o.Named := by
  obtain ⟨p, given, rfl⟩ := Option.map_eq_some_iff.mp found
  exact (typed.arg? given).ofBareName

theorem objectionsAs_eq_nil_iff (o : Option Opcode) : i.objectionsAs o = [] ↔ i.AcceptedAs o := by
  have dest := supplied_iff typed.dest
  have arg := fun n => supplied_iff fun o => typed.arg? (n := n) (o := o)
  have coerced := fun n => supplied_iff fun o => typed.coerced? (n := n) (o := o)
  have loaded := supplied_iff fun o => typed.loaded? (o := o)
  have environment := Operand.objections_eq_nil_iff typed.environment
  simp only [exists_coerced?_iff] at coerced
  cases o with
  | none => exact ifAbsent_eq_nil_iff
  | some o =>
    cases o <;> simp only [objectionsAs, AcceptedAs, lacksDest, List.append_eq_nil_iff,
      ifAbsent_eq_nil_iff, lacks_eq_nil_iff, unresolved_cons_eq_nil_iff, unresolved_nil, dest, arg,
      coerced, loaded, and_true]
    case some.gettabup =>
      simp only [Option.some.injEq, forall_eq', environment, and_assoc]
    case some.ret =>
      rw [List.flatMap_eq_nil_iff]
      exact forall₂_congr fun o ho => Operand.objections_eq_nil_iff (typed.args o ho)
    case some.forprep =>
      cases i.arg? 0 with
      | none => simp
      | some index =>
        cases index with
        | register name =>
          simp only [Operand.indexObjections, Option.elim_some, Option.some.injEq,
            Operand.register.injEq, exists_eq', true_and, and_assoc, and_comm, and_left_comm]
        | _ => simp [Operand.indexObjections]
    all_goals simp only [and_assoc, and_comm, and_left_comm]

theorem objections_eq_nil_iff : i.objections = [] ↔ i.Accepted := by
  obtain ⟨tagged, known⟩ := typed.opcode?
  rw [objections, Accepted, known, objectionsAs_eq_nil_iff typed]
  simp

end Typed

end Instruction

end BlockAsm
