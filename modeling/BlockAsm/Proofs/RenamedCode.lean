import BlockAsm.Proofs.Renaming
import BlockAsm.Proofs.Verdict

/-!
Lowering under other names. To rename an instruction is to rename the registers among its operands, and
the bare names where they stand for registers. The recipe of a renamed instruction is the renamed
recipe, and carrying it out in a mirrored context writes the same lines or fails for the same reason. Only
the place that a refusal is given quotes the instruction and so its names.
-/

namespace BlockAsm

namespace Operand

/-- Renames a register, or a bare name that stands for one. -/
def renameBare (ρ : String → String) : Operand → Operand
  | .other (.str x) => .other (.str (ρ x))
  | o => o.rename ρ

theorem ofBareName_renameBare (ρ : String → String) (o : Operand) :
    (o.renameBare ρ).ofBareName = o.ofBareName.rename ρ := by
  cases o with
  | register v => cases v <;> rfl
  | other v => cases v <;> rfl
  | _ => rfl

theorem rename_congr {ρ σ : String → String} {o : Operand}
    (same : ∀ x, o.register? = some x → ρ x = σ x) : o.rename ρ = o.rename σ := by
  cases o with
  | register v =>
    cases v with
    | str x => simp only [rename, same x rfl]
    | _ => rfl
  | _ => rfl

theorem renameBare_congr {ρ σ : String → String} {o : Operand}
    (same : ∀ x, o.ofBareName.register? = some x → ρ x = σ x) : o.renameBare ρ = o.renameBare σ := by
  cases o with
  | other v =>
    cases v with
    | str x => simp only [renameBare, same x rfl]
    | _ => rfl
  | _ => exact rename_congr same

end Operand

namespace Instruction

/-- Whether a bare name stands for a register at a place among the operands. -/
def takesBare (i : Instruction) (n : Nat) : Bool :=
  match i.opcode? with
  | .ok (some .settabup) => n == 1 || n == 2
  | .ok (some .settable) => n == 0 || n == 1
  | _ => false

def renameArg (i : Instruction) (ρ : String → String) (n : Nat) (o : Operand) : Operand :=
  if i.takesBare n then o.renameBare ρ else o.rename ρ

def rename (ρ : String → String) (i : Instruction) : Instruction :=
  { i with dest := i.dest.map (Operand.rename ρ), args := i.args.mapIdx (i.renameArg ρ) }

def argName? (i : Instruction) (n : Nat) (o : Operand) : Option String :=
  if i.takesBare n then o.ofBareName.register? else o.register?

def names (i : Instruction) : List String :=
  (i.dest.bind Operand.register?).toList ++ (i.args.mapIdx i.argName?).reduceOption

theorem rename_congr {ρ σ : String → String} {i : Instruction} (same : ∀ x ∈ i.names, ρ x = σ x) :
    i.rename ρ = i.rename σ := by
  have dests : i.dest.map (Operand.rename ρ) = i.dest.map (Operand.rename σ) := by
    cases given : i.dest with
    | none => rfl
    | some d =>
      simp only [Option.map_some, Option.some.injEq]
      apply Operand.rename_congr
      intro x named
      apply same
      simp [names, given, named]
  have args : i.args.mapIdx (i.renameArg ρ) = i.args.mapIdx (i.renameArg σ) := by
    rw [List.mapIdx_eq_mapIdx_iff]
    intro n bound
    have listed : ∀ x, i.argName? n i.args[n] = some x → ρ x = σ x := by
      intro x named
      apply same
      apply List.mem_append_right
      rw [List.reduceOption_mem_iff, List.mem_mapIdx]
      exact ⟨n, bound, named⟩
    unfold argName? at listed
    unfold renameArg
    split
    · rename_i bare
      rw [if_pos bare] at listed
      exact Operand.renameBare_congr listed
    · rename_i plain
      rw [if_neg plain] at listed
      exact Operand.rename_congr listed
  rw [rename, rename, dests, args]

end Instruction

namespace Recipe

def rename (ρ : String → String) : Recipe → Recipe
  | .line o operands immediates => .line o (operands.map (Operand.rename ρ)) immediates
  | .abort operands why => .abort (operands.map (Operand.rename ρ)) why
  | .giveBack operands => .giveBack (operands.map (Operand.rename ρ))
  | .enterLoop index limit step target =>
    .enterLoop (index.rename ρ) (limit.rename ρ) (step.rename ρ) target
  | .stepLoop index body => .stepLoop (index.rename ρ) body
  | .verbatim payload => .verbatim payload

def operands : Recipe → List Operand
  | .line _ operands _ => operands
  | .abort operands _ => operands
  | .giveBack operands => operands
  | .enterLoop index limit step _ => [index, limit, step]
  | .stepLoop index _ => [index]
  | .verbatim _ => []

theorem operands_rename (ρ : String → String) (p : Recipe) :
    (p.rename ρ).operands = p.operands.map (Operand.rename ρ) := by
  cases p <;> rfl

end Recipe

namespace Instruction

variable (ρ : String → String) (i : Instruction)

theorem renameArg_of_bare {n : Nat} (bare : i.takesBare n = true) :
    i.renameArg ρ n = Operand.renameBare ρ := by
  funext o
  rw [renameArg, bare, if_pos rfl]

theorem renameArg_of_plain {n : Nat} (plain : i.takesBare n = false) :
    i.renameArg ρ n = Operand.rename ρ := by
  funext o
  rw [renameArg, plain, if_neg Bool.false_ne_true]

theorem arg?_rename (n : Nat) : (i.rename ρ).arg? n = (i.arg? n).map (i.renameArg ρ n) := by
  have found : (i.rename ρ).args[n]? = i.args[n]?.map (i.renameArg ρ n) := List.getElem?_mapIdx
  unfold arg?
  rw [found]
  cases i.args[n]? with
  | none => rfl
  | some o =>
    cases bare : i.takesBare n with
    | true =>
      rw [renameArg_of_bare ρ i bare]
      cases o with
      | register v => cases v <;> rfl
      | other v => cases v <;> rfl
      | _ => rfl
    | false =>
      rw [renameArg_of_plain ρ i bare]
      cases o with
      | register v => cases v <;> rfl
      | other v => cases v <;> rfl
      | _ => rfl

theorem arg_rename (n : Nat) (role : String) :
    (i.rename ρ).arg n role = (i.arg n role).map (i.renameArg ρ n) := by
  rw [arg, arg?_rename, arg]
  cases i.arg? n <;> rfl

theorem target_rename : (i.rename ρ).target = i.target.map (Operand.rename ρ) := by
  unfold target rename
  cases i.dest <;> rfl

/-- Where no bare name stands for a register, every operand is renamed as a register is. -/
theorem args_rename (plain : ∀ n, i.takesBare n = false) :
    (i.rename ρ).args = i.args.map (Operand.rename ρ) := by
  have same : i.renameArg ρ = fun _ o => o.rename ρ := by
    funext n
    exact renameArg_of_plain ρ i (plain n)
  rw [rename, same]
  apply List.ext_getElem?
  intro n
  rw [List.getElem?_mapIdx, List.getElem?_map]

theorem settle_map (x : Except Failure Recipe) :
    settle (x.map (Recipe.rename ρ)) = (settle x).rename ρ := by
  cases x <;> rfl

section Recipes

variable {i}

theorem loadRecipe_rename (plain : ∀ n, i.takesBare n = false) :
    (i.rename ρ).loadRecipe = i.loadRecipe.map (Recipe.rename ρ) := by
  unfold loadRecipe
  rw [target_rename, args_rename ρ i plain]
  cases given : i.args with
  | cons o rest => cases i.target <;> rfl
  | nil =>
    have same : (i.rename ρ).namedConstant = i.namedConstant := rfl
    simp only [List.map_nil, same]
    cases named : i.namedConstant with
    | error f => rfl
    | ok source =>
      obtain ⟨v, -, rfl⟩ := Option.map_eq_some_iff.mp (namedConstant_eq_ok named)
      cases i.target <;> rfl

theorem moveRecipe_rename (plain : ∀ n, i.takesBare n = false) :
    (i.rename ρ).moveRecipe = i.moveRecipe.map (Recipe.rename ρ) := by
  unfold moveRecipe
  rw [target_rename, arg_rename, renameArg_of_plain ρ i (plain 0)]
  cases i.arg 0 "source" <;> cases i.target <;> rfl

theorem getFieldRecipe_rename (plain : ∀ n, i.takesBare n = false) :
    (i.rename ρ).getFieldRecipe = i.getFieldRecipe.map (Recipe.rename ρ) := by
  have metadata : (i.rename ρ).fields = i.fields := rfl
  unfold getFieldRecipe
  rw [target_rename, args_rename ρ i plain, metadata]
  cases i.args <;> cases i.fields <;> cases i.target <;> rfl

theorem newTableRecipe_rename :
    (i.rename ρ).newTableRecipe = i.newTableRecipe.map (Recipe.rename ρ) := by
  have metadata : (i.rename ρ).fields = i.fields := rfl
  unfold newTableRecipe
  rw [target_rename, metadata]
  cases i.fields <;> cases i.target <;> rfl

theorem callRecipe_rename (plain : ∀ n, i.takesBare n = false) :
    (i.rename ρ).callRecipe = i.callRecipe.map (Recipe.rename ρ) := by
  have metadata : (i.rename ρ).fields = i.fields := rfl
  have count : (i.rename ρ).args.length = i.args.length := List.length_mapIdx
  unfold callRecipe
  rw [arg_rename, renameArg_of_plain ρ i (plain 0), metadata, count]
  cases i.arg 0 "callee" <;> cases i.fields <;> rfl

theorem arithRecipe_rename (plain : ∀ n, i.takesBare n = false) (a : Arith) :
    (i.rename ρ).arithRecipe a = (i.arithRecipe a).map (Recipe.rename ρ) := by
  unfold arithRecipe
  rw [target_rename, arg_rename, arg_rename, renameArg_of_plain ρ i (plain 0),
    renameArg_of_plain ρ i (plain 1)]
  cases i.arg 0 "left" <;> cases i.arg 1 "right" <;> cases i.target <;> rfl

theorem enterRecipe_rename (plain : ∀ n, i.takesBare n = false) :
    (i.rename ρ).enterRecipe = i.enterRecipe.map (Recipe.rename ρ) := by
  have metadata : (i.rename ρ).fields = i.fields := rfl
  unfold enterRecipe
  rw [metadata]
  cases i.fields with
  | error f => rfl
  | ok fields =>
    simp only [Except.ok_bind]
    split
    · rfl
    · rw [arg_rename, arg_rename, arg_rename, renameArg_of_plain ρ i (plain 0),
        renameArg_of_plain ρ i (plain 1), renameArg_of_plain ρ i (plain 2)]
      cases i.arg 0 "index" <;> cases i.arg 1 "limit" <;> cases i.arg 2 "step" <;> rfl

theorem stepRecipe_rename (plain : ∀ n, i.takesBare n = false) :
    (i.rename ρ).stepRecipe = i.stepRecipe.map (Recipe.rename ρ) := by
  have metadata : (i.rename ρ).fields = i.fields := rfl
  unfold stepRecipe
  rw [metadata]
  cases i.fields with
  | error f => rfl
  | ok fields =>
    simp only [Except.ok_bind]
    split
    · rfl
    · rw [arg_rename, renameArg_of_plain ρ i (plain 0)]
      cases i.arg 0 "index" <;> rfl

theorem rawRecipe_rename : (i.rename ρ).rawRecipe = i.rawRecipe.map (Recipe.rename ρ) := by
  have metadata : (i.rename ρ).fields = i.fields := rfl
  unfold rawRecipe
  rw [metadata]
  cases i.fields with
  | error f => rfl
  | ok fields =>
    simp only [Except.ok_bind]
    split <;> rfl

theorem setFieldRecipe_rename (tagged : i.opcode? = .ok (some .settabup)) :
    (i.rename ρ).setFieldRecipe = i.setFieldRecipe.map (Recipe.rename ρ) := by
  have plain : i.takesBare 0 = false := by simp [takesBare, tagged]
  have key : i.takesBare 1 = true := by simp [takesBare, tagged]
  have value : i.takesBare 2 = true := by simp [takesBare, tagged]
  unfold setFieldRecipe
  rw [arg_rename, arg_rename, arg_rename, renameArg_of_plain ρ i plain, renameArg_of_bare ρ i key,
    renameArg_of_bare ρ i value]
  cases i.arg 0 "upvalue" with
  | error f => rfl
  | ok environment =>
    cases i.arg 1 "key" with
    | error f => rfl
    | ok k =>
      cases i.arg 2 "value" with
      | error f => rfl
      | ok v =>
        simp only [Except.map, Except.ok_bind, Operand.ofBareName_renameBare, Recipe.rename,
          List.map_cons, List.map_nil]

theorem setTableRecipe_rename (tagged : i.opcode? = .ok (some .settable)) :
    (i.rename ρ).setTableRecipe = i.setTableRecipe.map (Recipe.rename ρ) := by
  have key : i.takesBare 0 = true := by simp [takesBare, tagged]
  have value : i.takesBare 1 = true := by simp [takesBare, tagged]
  unfold setTableRecipe
  rw [target_rename, arg_rename, arg_rename, renameArg_of_bare ρ i key, renameArg_of_bare ρ i value]
  cases i.target with
  | error f => rfl
  | ok table =>
    cases i.arg 0 "key" with
    | error f => rfl
    | ok k =>
      cases i.arg 1 "value" with
      | error f => rfl
      | ok v =>
        simp only [Except.map, Except.ok_bind, Operand.ofBareName_renameBare, Recipe.rename,
          List.map_cons, List.map_nil]

theorem opcodeRecipe_rename {o : Opcode} (tagged : i.opcode? = .ok (some o)) :
    (i.rename ρ).opcodeRecipe o = (i.opcodeRecipe o).map (Recipe.rename ρ) := by
  cases o with
  | settabup => exact setFieldRecipe_rename ρ tagged
  | settable => exact setTableRecipe_rename ρ tagged
  | loadk => exact loadRecipe_rename ρ fun n => by simp [takesBare, tagged]
  | move => exact moveRecipe_rename ρ fun n => by simp [takesBare, tagged]
  | gettabup => exact getFieldRecipe_rename ρ fun n => by simp [takesBare, tagged]
  | newtable => exact newTableRecipe_rename ρ
  | call => exact callRecipe_rename ρ fun n => by simp [takesBare, tagged]
  | ret =>
    have plain : ∀ n, i.takesBare n = false := fun n => by simp [takesBare, tagged]
    simp only [opcodeRecipe, Except.map, Recipe.rename, args_rename ρ i plain]
  | arith a => exact arithRecipe_rename ρ (fun n => by simp [takesBare, tagged]) a
  | forprep => exact enterRecipe_rename ρ fun n => by simp [takesBare, tagged]
  | forloop => exact stepRecipe_rename ρ fun n => by simp [takesBare, tagged]

end Recipes

theorem recipe_rename : (i.rename ρ).recipe = i.recipe.rename ρ := by
  have tag : (i.rename ρ).opcode? = i.opcode? := rfl
  rw [recipe, recipe, ← settle_map, tag]
  cases tagged : i.opcode? with
  | error f => rfl
  | ok o =>
    cases o with
    | none =>
      simp only [Except.ok_bind]
      rw [rawRecipe_rename]
    | some o =>
      simp only [Except.ok_bind]
      rw [opcodeRecipe_rename ρ tagged]

/-- The registers of a recipe have names of the instruction: a renaming that leaves those alone leaves
the recipe alone. -/
theorem mem_names_of_mem_operands {x : String}
    (used : .register (.str x) ∈ i.recipe.operands) : x ∈ i.names := by
  by_contra absent
  have agree : ∀ y ∈ i.names, id y = Function.update id x (x ++ "x") y := by
    intro y listed
    rw [Function.update_of_ne]
    exact fun same => absent (same ▸ listed)
  have same : (i.recipe.rename id).operands =
      (i.recipe.rename (Function.update id x (x ++ "x"))).operands := by
    rw [← recipe_rename, ← recipe_rename, rename_congr agree]
  rw [Recipe.operands_rename, Recipe.operands_rename, List.map_inj_left] at same
  have changed := same _ used
  simp only [Operand.rename, id, Function.update_self, Operand.register.injEq, Value.str.injEq] at changed
  have longer := congrArg String.length changed
  simp at longer

end Instruction

namespace Item

def rename (ρ : String → String) : Item → Item
  | .instruction i => .instruction (i.rename ρ)
  | .other v => .other v

def names : Item → List String
  | .instruction i => i.names
  | .other _ => []

end Item

namespace Context

open Allocator

variable {stem : String → String} {r : Renaming stem} {c d : Context}

/-- The contexts have mirrored allocators and the same lines. -/
structure Mirrors (r : Renaming stem) (c d : Context) : Prop where
  allocator : c.allocator.Mirrors r d.allocator
  lines : c.lines = d.lines

namespace Mirrors

theorem write (m : Mirrors r c d) (line : Line) : Mirrors r (c.write line) (d.write line) :=
  ⟨m.allocator, by rw [Context.write, Context.write, m.lines]⟩

theorem withAllocator (m : Mirrors r c d) {a b : Allocator} (mirrored : a.Mirrors r b) :
    Mirrors r (c.withAllocator a) (d.withAllocator b) :=
  ⟨mirrored, m.lines⟩

theorem returnStep (m : Mirrors r c d) (left : c.allocator.WellFormed)
    (right : d.allocator.WellFormed) {o : Operand} (covered : r.Covers o) :
    Matches (fun p q => p.1 = q.1 ∧ Mirrors r p.2 q.2) (c.returnStep o)
      (d.returnStep (o.rename r.map)) := by
  by_cases constant : ∃ index, o = .constant index
  · obtain ⟨index, rfl⟩ := constant
    obtain ⟨slots, mirrored⟩ := m.allocator.scratch
    simp only [Operand.rename, Context.returnStep, slots]
    exact .ok ⟨rfl, (m.withAllocator mirrored).write _⟩
  · have varying : ∀ index, o.rename r.map ≠ .constant index := by
      intro index same
      cases o with
      | register v => cases v <;> cases same
      | constant index => exact constant ⟨index, rfl⟩
      | _ => cases same
    rw [returnStep_of_varying (not_exists.mp constant), returnStep_of_varying varying]
    apply (m.allocator.resolve left right covered).map
    rintro p q ⟨tokens, mirrored⟩
    exact ⟨tokens, m.withAllocator mirrored⟩

theorem resolveReturned (m : Mirrors r c d) (left : c.allocator.WellFormed)
    (right : d.allocator.WellFormed) {operands : List Operand}
    (covered : ∀ o ∈ operands, r.Covers o) :
    Mirrors r (c.resolveReturned operands).1
        (d.resolveReturned (operands.map (Operand.rename r.map))).1 ∧
      Matches (· = ·) (c.resolveReturned operands).2
        (d.resolveReturned (operands.map (Operand.rename r.map))).2 := by
  induction operands generalizing c d with
  | nil => exact ⟨m, .refl _⟩
  | cons o rest ih =>
    have others : ∀ p ∈ rest, r.Covers p := fun p hp => covered p (by simp [hp])
    rw [List.map_cons, resolveReturned_cons, resolveReturned_cons]
    rcases (m.returnStep left right (covered o (by simp))).cases with
      ⟨⟨t, e⟩, ⟨_, f⟩, first, second, rfl, next⟩ | ⟨_, _, first, second, alike⟩
    · obtain ⟨mirrored, matched⟩ := ih next (left.grows (returnStep_grows first))
        (right.grows (returnStep_grows second)) others
      rw [first, second]
      exact ⟨mirrored, matched.map fun ts us same => by rw [same]⟩
    · rw [first, second]
      exact ⟨m, .error alike⟩

theorem enterLoop (m : Mirrors r c d) (left : c.allocator.WellFormed)
    (right : d.allocator.WellFormed) {index limit step : Operand} (ci : r.Covers index)
    (cl : r.Covers limit) (cs : r.Covers step) (target : Value) :
    Mirrors r (c.enterLoop index limit step target).1
        (d.enterLoop (index.rename r.map) (limit.rename r.map) (step.rename r.map) target).1 ∧
      Matches (· = ·) (c.enterLoop index limit step target).2
        (d.enterLoop (index.rename r.map) (limit.rename r.map) (step.rename r.map) target).2 := by
  obtain ⟨mirrored, matched⟩ := m.allocator.layOut left right ci cl cs
  simp only [Context.enterLoop]
  rcases matched.cases with ⟨first, second, laid, laidToo, base, lines⟩ | ⟨f, g, failed, failedToo, alike⟩
  · rw [laid, laidToo]
    exact ⟨⟨mirrored, by simp only [m.lines, base, lines]⟩, .ok trivial⟩
  · rw [failed, failedToo]
    exact ⟨⟨mirrored, m.lines⟩, .error alike⟩

theorem stepLoop (m : Mirrors r c d) (left : c.allocator.WellFormed)
    (right : d.allocator.WellFormed) {index : Operand} (covered : r.Covers index) (body : Value) :
    Mirrors r (c.stepLoop index body).1 (d.stepLoop (index.rename r.map) body).1 ∧
      Matches (· = ·) (c.stepLoop index body).2 (d.stepLoop (index.rename r.map) body).2 := by
  have based : Matches (· = ·) (c.allocator.groupBase index)
      (d.allocator.groupBase (index.rename r.map)) := by
    by_cases named : ∃ x, index = .register (.str x)
    · obtain ⟨x, rfl⟩ := named
      simp only [Operand.rename, groupBase, nameText, Except.map,
        m.allocator.group? (covered x rfl)]
      exact .refl _
    · rw [Operand.rename_of_not_register (not_exists.mp named)]
      cases index with
      | register v =>
        have nontext : ∀ x, v ≠ .str x := fun x same => named ⟨x, by rw [same]⟩
        simp only [groupBase, nameText_of_not_text nontext, Except.map]
        exact .error (.same _)
      | _ => exact .refl _
  simp only [Context.stepLoop]
  rcases based.cases with ⟨base, _, first, second, rfl⟩ | ⟨f, g, first, second, alike⟩
  · rw [first, second]
    cases base with
    | some slot => exact ⟨m.write _, .ok trivial⟩
    | none =>
      rcases (m.allocator.resolve left right covered).cases with
        ⟨⟨t, a⟩, ⟨_, b⟩, resolved, resolvedToo, rfl, mirrored⟩ | ⟨f, g, failed, failedToo, alike⟩
      · rw [resolved, resolvedToo]
        exact ⟨(m.withAllocator mirrored).write _, .ok trivial⟩
      · rw [failed, failedToo]
        exact ⟨m, .error alike⟩
  · rw [first, second]
    exact ⟨m, .error alike⟩

theorem perform (m : Mirrors r c d) (left : c.allocator.WellFormed)
    (right : d.allocator.WellFormed) {p : Recipe} (covered : ∀ o ∈ p.operands, r.Covers o) :
    Mirrors r (c.perform p).1 (d.perform (p.rename r.map)).1 ∧
      Matches (· = ·) (c.perform p).2 (d.perform (p.rename r.map)).2 := by
  cases p with
  | line o operands immediates =>
    rw [Recipe.operands] at covered
    obtain ⟨mirrored, matched⟩ := m.allocator.resolveAll left right covered
    rcases here : c.allocator.resolveAll operands with ⟨a, answer⟩
    rcases there : d.allocator.resolveAll (operands.map (Operand.rename r.map)) with ⟨b, mirror⟩
    rw [here, there] at mirrored matched
    simp only [Recipe.rename, Context.perform, here, there]
    cases matched with
    | ok same =>
      subst same
      exact ⟨(m.withAllocator mirrored).write _, .ok trivial⟩
    | error alike => exact ⟨m.withAllocator mirrored, .error alike⟩
  | abort operands why =>
    rw [Recipe.operands] at covered
    obtain ⟨mirrored, matched⟩ := m.allocator.resolveAll left right covered
    rcases here : c.allocator.resolveAll operands with ⟨a, answer⟩
    rcases there : d.allocator.resolveAll (operands.map (Operand.rename r.map)) with ⟨b, mirror⟩
    rw [here, there] at mirrored matched
    simp only [Recipe.rename, Context.perform, here, there]
    cases matched with
    | ok same => exact ⟨m.withAllocator mirrored, .error (.same why)⟩
    | error alike => exact ⟨m.withAllocator mirrored, .error alike⟩
  | giveBack operands =>
    rw [Recipe.operands] at covered
    obtain ⟨mirrored, matched⟩ := m.resolveReturned left right covered
    rcases here : c.resolveReturned operands with ⟨e, answer⟩
    rcases there : d.resolveReturned (operands.map (Operand.rename r.map)) with ⟨f, mirror⟩
    rw [here, there] at mirrored matched
    simp only [Recipe.rename, Context.perform, here, there]
    cases matched with
    | ok same =>
      subst same
      exact ⟨mirrored.write _, .ok trivial⟩
    | error alike => exact ⟨mirrored, .error alike⟩
  | enterLoop index limit step target =>
    exact m.enterLoop left right (covered index (by simp [Recipe.operands]))
      (covered limit (by simp [Recipe.operands])) (covered step (by simp [Recipe.operands])) target
  | stepLoop index body =>
    exact m.stepLoop left right (covered index (by simp [Recipe.operands])) body
  | verbatim payload => exact ⟨m.write _, .refl _⟩

theorem lower (m : Mirrors r c d) (left : c.allocator.WellFormed)
    (right : d.allocator.WellFormed) {item : Item} (covered : ∀ x ∈ item.names, x ∈ r.names) :
    Mirrors r (c.lower item).1 (d.lower (item.rename r.map)).1 ∧
      Matches (· = ·) (c.lower item).2 (d.lower (item.rename r.map)).2 := by
  cases item with
  | other v => exact ⟨m, .error (.same _)⟩
  | instruction i =>
    rw [Item.rename, Context.lower, Context.lower, Instruction.recipe_rename]
    apply m.perform left right
    rintro o used x rfl
    exact covered x (i.mem_names_of_mem_operands used)

theorem lowerAll (m : Mirrors r c d) (left : c.allocator.WellFormed)
    (right : d.allocator.WellFormed) (label : Value) (items : List Item)
    (covered : ∀ item ∈ items, ∀ x ∈ item.names, x ∈ r.names) :
    Mirrors r (c.lowerAll label items).1 (d.lowerAll label (items.map (Item.rename r.map))).1 ∧
      Matches (· = ·) (c.lowerAll label items).2
        (d.lowerAll label (items.map (Item.rename r.map))).2 := by
  induction items generalizing c d with
  | nil => exact ⟨m, .refl _⟩
  | cons item rest ih =>
    obtain ⟨mirrored, matched⟩ := m.lower left right (covered item (by simp))
    have wfLeft := (lower_groups left item).1
    have wfRight := (lower_groups right (item.rename r.map)).1
    have others : ∀ other ∈ rest, ∀ x ∈ other.names, x ∈ r.names :=
      fun other later => covered other (by simp [later])
    rcases here : c.lower item with ⟨e, answer⟩
    rcases there : d.lower (item.rename r.map) with ⟨f, mirror⟩
    rw [here] at mirrored matched wfLeft
    rw [there] at mirrored matched wfRight
    rw [List.map_cons, Context.lowerAll, Context.lowerAll, here, there]
    cases matched with
    | ok _ => exact ih mirrored wfLeft wfRight others
    | error alike => exact ⟨mirrored, .error (alike.annotate label _ _)⟩

end Mirrors

end Context

namespace Block

def rename (ρ : String → String) (b : Block) : Block :=
  { b with items := b.items.map (Item.rename ρ) }

def names (b : Block) : List String := b.items.flatMap Item.names

end Block

namespace Context

open Allocator

variable {stem : String → String} {r : Renaming stem} {c d : Context}

theorem Mirrors.emitBlock (m : Mirrors r c d) (left : c.allocator.WellFormed)
    (right : d.allocator.WellFormed) {b : Block} (covered : ∀ x ∈ b.names, x ∈ r.names) :
    Mirrors r (c.emitBlock b).1 (d.emitBlock (b.rename r.map)).1 ∧
      Matches (· = ·) (c.emitBlock b).2 (d.emitBlock (b.rename r.map)).2 := by
  have opened : Mirrors r (c.opened b) (d.opened b) := ⟨m.allocator, rfl⟩
  obtain ⟨mirrored, matched⟩ := opened.lowerAll left right b.label b.items fun item listed x named =>
    covered x (List.mem_flatMap.mpr ⟨item, listed, named⟩)
  rcases here : (c.opened b).lowerAll b.label b.items with ⟨e, answer⟩
  rcases there : (d.opened b).lowerAll b.label (b.items.map (Item.rename r.map)) with ⟨f, mirror⟩
  rw [here, there] at mirrored matched
  rw [Context.opened] at here there
  simp only [Context.emitBlock, Block.rename, here, there]
  cases matched with
  | ok _ => exact ⟨⟨mirrored.allocator, rfl⟩, .ok (mirrored.write _).lines⟩
  | error alike => exact ⟨mirrored, .error alike⟩

end Context

namespace Assembly

variable {stem : String → String} {r : Renaming stem} {c d : Context}

theorem blockSection_mirrors (m : c.Mirrors r d) (left : c.allocator.WellFormed)
    (right : d.allocator.WellFormed) {blocks : List Block}
    (covered : ∀ b ∈ blocks, ∀ x ∈ b.names, x ∈ r.names) :
    Matches (· = ·) (blockSection c blocks).2
      (blockSection d (blocks.map (Block.rename r.map))).2 := by
  induction blocks generalizing c d with
  | nil => exact .refl _
  | cons b rest ih =>
    have others : ∀ other ∈ rest, ∀ x ∈ other.names, x ∈ r.names :=
      fun other later => covered other (by simp [later])
    obtain ⟨mirrored, matched⟩ := m.emitBlock left right (covered b (by simp))
    rw [List.map_cons, blockSection_cons, blockSection_cons]
    rcases matched.cases with ⟨lines, _, here, there, rfl⟩ | ⟨f, g, here, there, alike⟩
    · have later := ih mirrored (Context.emitBlock_wellFormed left here)
        (Context.emitBlock_wellFormed right there) others
      rw [here, there]
      exact later.map fun more _ same => by rw [same]
    · rw [here, there]
      exact .error alike

end Assembly

end BlockAsm
