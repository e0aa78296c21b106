import BlockAsm.Proofs.Machine

/-!
Recipes by opcode. A recipe is either given up before anything is written, or it is the one that the
opcode is for, with the operands and plain values that the instruction reads.
-/

namespace BlockAsm

/-- An operand that a token can be made of. -/
def Operand.Resolvable : Operand → Prop
  | .register (.str _) => True
  | .constant _ => True
  | .upvalue _ => True
  | _ => False

def Operand.Named : Operand → Prop
  | .register name => ∃ s, name = .str s
  | _ => True

theorem Operand.Resolvable.named {o : Operand} (resolvable : o.Resolvable) : o.Named := by
  cases o with
  | register name =>
    cases name with
    | str s => exact ⟨s, rfl⟩
    | _ => exact False.elim resolvable
  | _ => trivial

theorem Except.bind_eq_ok {ε α β : Type} {first : Except ε α} {next : α → Except ε β} {b : β} :
    (first >>= next) = .ok b ↔ ∃ a, first = .ok a ∧ next a = .ok b := by
  cases first with
  | error e => simp [bind, Except.bind]
  | ok a => simp [bind, Except.bind]

theorem Except.map_eq_ok {ε α β : Type} {first : Except ε α} {f : α → β} {b : β} :
    first.map f = .ok b ↔ ∃ a, first = .ok a ∧ f a = b := by
  cases first with
  | error e => simp [Except.map]
  | ok a => simp [Except.map]

theorem Except.ok_bind {ε α β : Type} (a : α) (next : α → Except ε β) :
    (Except.ok a >>= next) = next a := rfl

namespace Instruction

theorem target_eq_ok {i : Instruction} {d : Operand} (h : i.target = .ok d) : i.dest = some d := by
  unfold target at h
  split at h <;> simp_all [refuse]

theorem arg_eq_ok {i : Instruction} {n : Nat} {role : String} {o : Operand}
    (h : i.arg n role = .ok o) : i.args[n]? = some o := by
  unfold arg arg? at h
  split at h
  · rename_i found
    split at found
    · cases found
    · simp_all
  · simp [refuse] at h

theorem fields_eq_ok {i : Instruction} {fields : Fields} (h : i.fields = .ok fields) :
    i.metadata = .object fields := by
  unfold Instruction.fields at h
  split at h <;> simp_all

theorem fields_of_object {i : Instruction} {fields : Fields} (object : i.metadata = .object fields) :
    i.fields = .ok fields := by
  simp [Instruction.fields, object]

theorem namedConstant_eq_ok {i : Instruction} {o : Operand} (h : i.namedConstant = .ok o) :
    (i.field? "c").map .constant = some o := by
  cases object : i.metadata with
  | object fields =>
    simp only [namedConstant, object] at h
    simp only [field?, object]
    cases found : Table.get? fields "c" with
    | none => simp [found, refuse] at h
    | some v => simpa [found] using h
  | _ =>
    simp only [namedConstant, object] at h
    split at h <;> simp [refuse] at h

theorem recipe_eq {i : Instruction} {o : Opcode} (h : i.opcode? = .ok (some o)) :
    i.recipe = settle (i.opcodeRecipe o) := by
  simp only [recipe, h]
  rfl

theorem recipe_of_fault {i : Instruction} {why : Failure} (h : i.opcode? = .error why) :
    i.recipe = .abort [] why := by
  simp only [recipe, h]
  rfl

theorem recipe_of_unknown {i : Instruction} (h : i.opcode? = .ok none) :
    i.recipe = settle i.rawRecipe := by
  simp only [recipe, h]
  rfl

/-- A recipe is what its opcode makes of the instruction, unless that is refused. -/
theorem recipe_cases {i : Instruction} {o : Opcode} (h : i.opcode? = .ok (some o)) :
    (∃ why, i.recipe = .abort [] why) ∨ i.opcodeRecipe o = .ok i.recipe := by
  rw [recipe_eq h]
  cases settled : i.opcodeRecipe o with
  | error why => exact .inl ⟨why, rfl⟩
  | ok recipe => exact .inr rfl

theorem loadRecipe_eq_ok {i : Instruction} {r : Recipe} (h : i.loadRecipe = .ok r) :
    ∃ d, i.dest = some d ∧ r = .line .loadk (d :: i.sources .loadk) [] := by
  unfold loadRecipe at h
  split at h
  · rename_i first rest hargs
    simp only [Except.bind_eq_ok] at h
    obtain ⟨source, hs, d, hd, hr⟩ := h
    cases hs
    cases hr
    exact ⟨d, target_eq_ok hd, by simp [sources, hargs]⟩
  · rename_i hargs
    simp only [Except.bind_eq_ok] at h
    obtain ⟨source, hs, d, hd, hr⟩ := h
    cases hr
    exact ⟨d, target_eq_ok hd, by simp [sources, hargs, namedConstant_eq_ok hs]⟩

theorem moveRecipe_eq_ok {i : Instruction} {r : Recipe} (h : i.moveRecipe = .ok r) :
    ∃ d, i.dest = some d ∧ r = .line .move (d :: i.sources .move) [] := by
  simp only [moveRecipe, Except.bind_eq_ok] at h
  obtain ⟨source, hs, d, hd, hr⟩ := h
  refine ⟨d, target_eq_ok hd, ?_⟩
  cases hr
  have first := arg_eq_ok hs
  cases hargs : i.args <;> simp_all [sources]

theorem getFieldRecipe_eq_ok {i : Instruction} {r : Recipe} (h : i.getFieldRecipe = .ok r) :
    ∃ d, i.dest = some d ∧ r = .line .gettabup (d :: i.sources .gettabup) [] := by
  simp only [getFieldRecipe, Except.bind_eq_ok] at h
  obtain ⟨fields, hf, d, hd, hr⟩ := h
  refine ⟨d, target_eq_ok hd, ?_⟩
  cases hr
  simp only [sources, field?, fields_eq_ok hf, fieldOr]
  cases Table.get? fields "key" <;> simp

theorem newTableRecipe_eq_ok {i : Instruction} {r : Recipe} (h : i.newTableRecipe = .ok r) :
    ∃ d, i.dest = some d ∧
      r = .line .newtable (d :: i.sources .newtable) (i.immediates .newtable) := by
  simp only [newTableRecipe, Except.bind_eq_ok] at h
  obtain ⟨fields, hf, d, hd, hr⟩ := h
  refine ⟨d, target_eq_ok hd, ?_⟩
  cases hr
  simp only [sources, immediates, field?, fields_eq_ok hf]

theorem arithRecipe_eq_ok {i : Instruction} {a : Arith} {r : Recipe}
    (h : i.arithRecipe a = .ok r) :
    ∃ d, i.dest = some d ∧ r = .line (.arith a) (d :: i.sources (.arith a)) [] := by
  simp only [arithRecipe, Except.bind_eq_ok] at h
  obtain ⟨left, hl, right, hr, d, hd, hrecipe⟩ := h
  refine ⟨d, target_eq_ok hd, ?_⟩
  cases hrecipe
  have first := arg_eq_ok hl
  have second := arg_eq_ok hr
  rcases hargs : i.args with _ | ⟨x, _ | ⟨y, rest⟩⟩ <;> simp_all [sources]

theorem setFieldRecipe_eq_ok {i : Instruction} {r : Recipe} (h : i.setFieldRecipe = .ok r) :
    r = .line .settabup (i.sources .settabup) [] := by
  simp only [setFieldRecipe, Except.bind_eq_ok] at h
  obtain ⟨environment, he, key, hk, value, hv, hr⟩ := h
  cases hr
  have first := arg_eq_ok he
  have second := arg_eq_ok hk
  have third := arg_eq_ok hv
  rcases hargs : i.args with _ | ⟨x, _ | ⟨y, _ | ⟨z, rest⟩⟩⟩ <;> simp_all [sources]

theorem setTableRecipe_eq_ok {i : Instruction} {r : Recipe} (h : i.setTableRecipe = .ok r) :
    (∃ operands why, r = .abort operands why) ∨ r = .line .settable (i.sources .settable) [] := by
  simp only [setTableRecipe, Except.bind_eq_ok] at h
  obtain ⟨table, ht, h⟩ := h
  split at h
  · rename_i operands collected
    right
    simp only [Except.bind_eq_ok] at collected
    obtain ⟨key, hk, value, hv, hc⟩ := collected
    cases hc
    cases h
    have first := arg_eq_ok hk
    have second := arg_eq_ok hv
    rcases hargs : i.args with _ | ⟨x, _ | ⟨y, rest⟩⟩ <;> simp_all [sources, target_eq_ok ht]
  · rename_i why _
    cases h
    exact .inl ⟨[table], why, rfl⟩

theorem recipe_of_result {i : Instruction} {o : Opcode} (h : i.opcode? = .ok (some o))
    (role : o.role? = some .result) :
    (∃ operands why, i.recipe = .abort operands why) ∨
      ∃ d, i.dest = some d ∧ i.recipe = .line o (d :: i.sources o) (i.immediates o) := by
  rcases recipe_cases h with ⟨why, refused⟩ | settled
  · exact .inl ⟨[], why, refused⟩
  · right
    cases o with
    | loadk => exact loadRecipe_eq_ok settled
    | move => exact moveRecipe_eq_ok settled
    | gettabup => exact getFieldRecipe_eq_ok settled
    | newtable => exact newTableRecipe_eq_ok settled
    | arith a => exact arithRecipe_eq_ok settled
    | _ => simp [Opcode.role?] at role

theorem recipe_of_effect {i : Instruction} {o : Opcode} (h : i.opcode? = .ok (some o))
    (role : o.role? = some .effect) :
    (∃ operands why, i.recipe = .abort operands why) ∨
      i.recipe = .line o (i.sources o) (i.immediates o) := by
  rcases recipe_cases h with ⟨why, refused⟩ | settled
  · exact .inl ⟨[], why, refused⟩
  · cases o with
    | settabup => exact .inr (setFieldRecipe_eq_ok settled)
    | settable => exact setTableRecipe_eq_ok settled
    | _ => simp [Opcode.role?] at role

theorem recipe_of_ret {i : Instruction} (h : i.opcode? = .ok (some .ret)) :
    i.recipe = .giveBack i.args := recipe_eq h

theorem callRecipe_eq_ok {i : Instruction} {r : Recipe} (h : i.callRecipe = .ok r) :
    r = .line .call (i.args.take 1) [.int i.args.length, (i.field? "nret").getD (.int 1)] := by
  simp only [callRecipe, Except.bind_eq_ok] at h
  obtain ⟨callee, hc, fields, hf, hr⟩ := h
  cases hr
  have first := arg_eq_ok hc
  rcases hargs : i.args with _ | ⟨x, rest⟩ <;> simp_all [field?, fields_eq_ok hf]

theorem enterRecipe_eq_ok {i : Instruction} {r : Recipe} (h : i.enterRecipe = .ok r) :
    ∃ index limit step target rest, i.args = index :: limit :: step :: rest ∧
      r = .enterLoop index limit step target := by
  simp only [enterRecipe, Except.bind_eq_ok] at h
  obtain ⟨fields, _, h⟩ := h
  split at h
  · simp [refuse] at h
  · simp only [Except.bind_eq_ok] at h
    obtain ⟨index, hi, limit, hl, step, hs, hr⟩ := h
    cases hr
    have first := arg_eq_ok hi
    have second := arg_eq_ok hl
    have third := arg_eq_ok hs
    rcases hargs : i.args with _ | ⟨x, _ | ⟨y, _ | ⟨z, rest⟩⟩⟩ <;> simp_all

theorem field?_of_read {i : Instruction} {fields : Fields} {name : String}
    (object : i.metadata = .object fields) (present : Fields.read fields name ≠ .null) :
    i.field? name = some (Fields.read fields name) := by
  simp only [field?, object]
  cases found : Table.get? fields name with
  | none => simp [Fields.read, found] at present
  | some v => simp [Fields.read, found]

theorem stepRecipe_eq_ok {i : Instruction} {r : Recipe} (h : i.stepRecipe = .ok r) :
    ∃ index body rest, i.args = index :: rest ∧ i.field? "body" = some body ∧
      r = .stepLoop index body := by
  simp only [stepRecipe, Except.bind_eq_ok] at h
  obtain ⟨fields, hf, h⟩ := h
  split at h
  · simp [refuse] at h
  · rename_i present
    simp only [Except.bind_eq_ok] at h
    obtain ⟨index, hi, hr⟩ := h
    cases hr
    have first := arg_eq_ok hi
    have body := field?_of_read (fields_eq_ok hf) present
    rcases hargs : i.args with _ | ⟨x, rest⟩ <;> simp_all

theorem rawRecipe_eq_ok {i : Instruction} {r : Recipe} (h : i.rawRecipe = .ok r) :
    ∃ payload, i.field? "raw" = some payload ∧ r = .verbatim payload := by
  simp only [rawRecipe, Except.bind_eq_ok] at h
  obtain ⟨fields, hf, h⟩ := h
  split at h
  · simp [refuse] at h
  · rename_i present
    cases h
    exact ⟨_, field?_of_read (fields_eq_ok hf) present, rfl⟩

/-- Which recipes an instruction can have, by what its tag stands for. -/
theorem recipe_kinds (i : Instruction) :
    (∃ operands why, i.recipe = .abort operands why) ∨
    (∃ o operands immediates, i.opcode? = .ok (some o) ∧ i.recipe = .line o operands immediates) ∨
    (i.opcode? = .ok (some .ret) ∧ i.recipe = .giveBack i.args) ∨
    (i.opcode? = .ok (some .forprep) ∧ ∃ index limit step target rest,
      i.args = index :: limit :: step :: rest ∧ i.recipe = .enterLoop index limit step target) ∨
    (i.opcode? = .ok (some .forloop) ∧ ∃ index body rest,
      i.args = index :: rest ∧ i.recipe = .stepLoop index body) ∨
    (i.opcode? = .ok none ∧ ∃ payload, i.recipe = .verbatim payload) := by
  cases tagged : i.opcode? with
  | error why => exact .inl ⟨[], why, recipe_of_fault tagged⟩
  | ok found =>
    cases found with
    | none =>
      have made := recipe_of_unknown tagged
      cases raw : i.rawRecipe with
      | error why =>
        rw [raw] at made
        exact .inl ⟨[], why, made⟩
      | ok r =>
        obtain ⟨payload, -, rfl⟩ := rawRecipe_eq_ok raw
        rw [raw] at made
        exact .inr (.inr (.inr (.inr (.inr ⟨rfl, payload, made⟩))))
    | some o =>
      rcases recipe_cases tagged with ⟨why, refused⟩ | settled
      · exact .inl ⟨[], why, refused⟩
      · cases o with
        | forprep => exact .inr (.inr (.inr (.inl ⟨rfl, enterRecipe_eq_ok settled⟩)))
        | forloop =>
          obtain ⟨index, body, rest, given, -, made⟩ := stepRecipe_eq_ok settled
          exact .inr (.inr (.inr (.inr (.inl ⟨rfl, index, body, rest, given, made⟩))))
        | ret => exact .inr (.inr (.inl ⟨rfl, recipe_of_ret tagged⟩))
        | call => exact .inr (.inl ⟨_, _, _, rfl, callRecipe_eq_ok settled⟩)
        | settabup => exact .inr (.inl ⟨_, _, _, rfl, setFieldRecipe_eq_ok settled⟩)
        | settable =>
          rcases setTableRecipe_eq_ok settled with aborted | made
          · exact .inl aborted
          · exact .inr (.inl ⟨_, _, _, rfl, made⟩)
        | _ =>
          rcases recipe_of_result tagged rfl with aborted | ⟨d, _, made⟩
          · exact .inl aborted
          · exact .inr (.inl ⟨_, _, _, rfl, made⟩)

theorem arg_of_resolvable {i : Instruction} {n : Nat} {o : Operand} (present : i.args[n]? = some o)
    (resolvable : o.Resolvable) (role : String) : i.arg n role = .ok o := by
  cases o with
  | other v => exact False.elim resolvable
  | _ => simp [arg, arg?, present]

theorem recipe_of_forprep {i : Instruction} {fields : Fields} {index limit step : Operand}
    {rest : List Operand} (h : i.opcode? = .ok (some .forprep)) (object : i.metadata = .object fields)
    (named : fieldOr fields "target" "loop" .null ≠ .null)
    (hargs : i.args = index :: limit :: step :: rest) (hi : index.Resolvable)
    (hl : limit.Resolvable) (hs : step.Resolvable) :
    i.recipe = .enterLoop index limit step (fieldOr fields "target" "loop" .null) := by
  have first := arg_of_resolvable (i := i) (n := 0) (by simp [hargs]) hi "index"
  have second := arg_of_resolvable (i := i) (n := 1) (by simp [hargs]) hl "limit"
  have third := arg_of_resolvable (i := i) (n := 2) (by simp [hargs]) hs "step"
  have entered : i.enterRecipe = .ok (.enterLoop index limit step
      (fieldOr fields "target" "loop" .null)) := by
    simp only [enterRecipe, fields_of_object object, Except.bind_eq_ok]
    refine ⟨fields, rfl, ?_⟩
    split
    · exact absurd (by assumption) named
    · simp only [first, second, third]
      rfl
  rw [recipe_eq h]
  exact congrArg settle entered

end Instruction

end BlockAsm
