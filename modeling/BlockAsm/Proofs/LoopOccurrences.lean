import BlockAsm.Proofs.LoopBindings
import BlockAsm.Proofs.LoopNesting

/-!
Occurrences of a loop variable. From the latest entry to a loop of a stem on, the group of the stem is
the one of that entry: the loop is stepped at the first slot of the group, and every name of the stem
reads the last one, whether it was bound before or is seen for the first time. Only a name that a loop
takes for its limit or step is moved elsewhere.
-/

namespace BlockAsm

namespace Allocator

theorem peek_place {a : Allocator} (name : String) {x : String} {slot : Int}
    (peeked : a.peek x = some slot) : (a.place name).2.peek x = some slot := by
  cases known : a.lookup (.ofText name) with
  | some held => rwa [place_of_lookup known]
  | none =>
    rw [place_of_unbound known]
    by_cases same : x = name
    · subst same
      have body : a.bodySlot? x = some slot := by rwa [peek, known, Option.none_or] at peeked
      rw [peek, lookup_bind, if_pos rfl, body]
      rfl
    · rw [peek, lookup_bind, if_neg (by simpa using same)]
      exact peeked

theorem Grows.peek {a b : Allocator} (grown : Grows a b) {x : String} {slot : Int}
    (peeked : a.peek x = some slot) : b.peek x = some slot :=
  grown.keeps (P := fun c => c.peek x = some slot) peeked (fun _ name kept => peek_place name kept)
    fun _ _ kept => kept

theorem resolve_of_peek {a : Allocator} {x : String} {slot : Int} (peeked : a.peek x = some slot) :
    ∃ b, a.resolve (.register (.str x)) = .ok (.register slot, b) := by
  simp only [resolve, placeValue_str, place, peeked]
  split <;> exact ⟨_, rfl⟩

/-- After a loop is laid out, the names of its stem are read from the last slot of its group, and the
names of other stems from where they were. -/
theorem WellFormed.peek_layOut {a : Allocator} (wf : a.WellFormed) (index : String)
    {limit step : Operand} (hl : limit.Resolvable) (hs : step.Resolvable) {x : String}
    (outside : .register (.str x) ∉ [limit, step]) :
    (a.layOut (.register (.str index)) limit step).1.peek x =
      if a.stem x = a.stem index then some (a.entrySlot index + 3) else a.peek x := by
  obtain ⟨b, range, -, -, laid, -, stems, groups⟩ := wf.layOut index hl hs
  have moved := wf.lookup_layOut index hl hs x
  rw [a.seat?_of_outside index outside] at moved
  rw [laid] at moved ⊢
  rw [peek, bodySlot?, stems, group?_of_groups_set groups, moved]
  by_cases same : a.stem x = a.stem index
  · by_cases bound : x = index ∨ a.lookup (.ofText x) ≠ none
    · simp [same, bound]
    · rw [not_or, not_not] at bound
      simp [same, bound.1, bound.2]
  · simp [same, peek, bodySlot?]

end Allocator

namespace Instruction

theorem recipe_of_forloop {i : Instruction} {fields : Fields} {x : String} {rest : List Operand}
    (h : i.opcode? = .ok (some .forloop)) (object : i.metadata = .object fields)
    (named : Fields.read fields "body" ≠ .null) (given : i.args = .register (.str x) :: rest) :
    i.recipe = .stepLoop (.register (.str x)) (Fields.read fields "body") := by
  have present : i.args[0]? = some (.register (.str x)) := by simp [given]
  have first := arg_of_resolvable present trivial "index"
  have stepped : i.stepRecipe = .ok (.stepLoop (.register (.str x)) (Fields.read fields "body")) := by
    simp only [stepRecipe, fields_of_object object, Except.bind_eq_ok]
    refine ⟨fields, rfl, ?_⟩
    split
    · exact absurd (by assumption) named
    · simp only [first]
      rfl
  rw [recipe_eq h]
  exact congrArg settle stepped

end Instruction

namespace Context

open Allocator

theorem Enters.layOut {c : Context} (wf : c.allocator.WellFormed) {item : Item} {index : String}
    (entered : c.Enters item index) :
    ∃ limit step rest, item.args = .register (.str index) :: limit :: step :: rest ∧
      limit.Resolvable ∧ step.Resolvable ∧
      (c.lower item).1.allocator = (c.allocator.layOut (.register (.str index)) limit step).1 := by
  obtain ⟨tagged, named, succeeded⟩ := entered
  obtain ⟨name, limit, step, rest, given, hl, hs, laid⟩ := lower_layOut wf tagged succeeded
  rw [Item.index?, given] at named
  cases named
  exact ⟨limit, step, rest, given, hl, hs, laid⟩

/-- A name that the item does not take for a limit or step is read from where it was, unless a loop of
its stem is entered. -/
theorem lower_peek {c : Context} (wf : c.allocator.WellFormed) {item : Item} {x : String} {slot : Int}
    (apart : ∀ index, c.Enters item index → c.allocator.stem index ≠ c.allocator.stem x)
    (outside : item.opcode? = some .forprep → .register (.str x) ∉ item.range)
    (peeked : c.allocator.peek x = some slot) : (c.lower item).1.allocator.peek x = some slot := by
  rcases lower_allocator_cases wf item with grown | ⟨same, bindings⟩ | ⟨tagged, succeeded⟩
  · exact grown.peek peeked
  · rwa [peek, same.bodySlot?, lookup, bindings]
  · obtain ⟨index, limit, step, target, named, -⟩ := lower_entry wf tagged succeeded
    have entered : c.Enters item index := ⟨tagged, named, succeeded⟩
    obtain ⟨limit, step, rest, given, hl, hs, laid⟩ := entered.layOut wf
    rw [laid, wf.peek_layOut index hl hs (Item.range_eq given ▸ outside tagged),
      if_neg (Ne.symm (apart index entered))]
    exact peeked

section Latest

variable {c : Context} {items : List Item} {stem : String}

/-- Along a run that enters no loop of a stem, the group of the stem stays. -/
theorem lowerEach_group?_of_not_entered (wf : c.allocator.WellFormed)
    (latest : ∀ first item index, first ++ [item] <+: items → (c.lowerEach first).Enters item index →
      c.allocator.stem index ≠ stem) :
    (c.lowerEach items).allocator.group? stem = c.allocator.group? stem := by
  apply lowerEach_invariant (P := fun d => d.allocator.group? stem = c.allocator.group? stem) rfl
  intro first item reached kept
  rw [← kept]
  apply lower_group?_of_not_entered (lowerEach_wellFormed wf first)
  intro index entered
  rw [lowerEach_stem wf]
  exact latest first item index reached entered

/-- Along such a run, a name of the stem that no loop takes for its limit or step is read from where
it was. -/
theorem lowerEach_peek (wf : c.allocator.WellFormed) {x : String} {slot : Int}
    (latest : ∀ first item index, first ++ [item] <+: items → (c.lowerEach first).Enters item index →
      c.allocator.stem index ≠ c.allocator.stem x)
    (outside : ∀ item ∈ items, item.opcode? = some .forprep → .register (.str x) ∉ item.range)
    (peeked : c.allocator.peek x = some slot) :
    (c.lowerEach items).allocator.peek x = some slot := by
  apply lowerEach_invariant (P := fun d => d.allocator.peek x = some slot) peeked
  intro first item reached kept
  have membership : item ∈ items := reached.subset (by simp)
  apply lower_peek (lowerEach_wellFormed wf first) _ (outside item membership) kept
  intro index entered
  rw [lowerEach_stem wf]
  exact latest first item index reached entered

end Latest

/-- A step of a loop whose stem has a group addresses the first slot of the group. -/
theorem lower_step {c : Context} {i : Instruction} {fields : Fields} {x : String}
    {rest : List Operand} {base : Int} (tagged : i.opcode? = .ok (some .forloop))
    (object : i.metadata = .object fields) (named : Fields.read fields "body" ≠ .null)
    (given : i.args = .register (.str x) :: rest)
    (based : c.allocator.group? (c.allocator.stem x) = some base) :
    (c.lower (.instruction i)).2 = .ok () ∧ c.emitted (.instruction i) =
      [.code ⟨.forloop, [.register base], [Fields.read fields "body"]⟩] := by
  have found : c.allocator.groupBase (.register (.str x)) = .ok (some base) := by
    simp only [groupBase, nameText, Except.map, based]
  have lowered : c.lower (.instruction i) =
      (c.writeCode .forloop [.register base] [Fields.read fields "body"], .ok ()) := by
    rw [lower, Instruction.recipe_of_forloop tagged object named given, perform, stepLoop, found]
  exact ⟨by rw [lowered], emitted_eq (by rw [lowered]; rfl)⟩

/-- From the latest entry to a loop of a stem on, the stem's group begins at the register of that
entry, the loop is stepped there, and the names of the stem are resolved to the last slot of the
group. -/
theorem latest_entry_governs {c : Context} (seeded : c.Seeded) {before after : List Item}
    {entry : Item} {index : String} (entered : (c.lowerEach before).Enters entry index)
    (latest : ∀ first item other, first ++ [item] <+: after →
      (c.lowerEach (before ++ entry :: first)).Enters item other →
      c.allocator.stem other ≠ c.allocator.stem index) :
    ∃ base copies target,
      (c.lowerEach before).emitted entry =
        copies ++ [.code ⟨.forprep, [.register base], [target]⟩] ∧
      (c.lowerEach (before ++ entry :: after)).allocator.group? (c.allocator.stem index) =
        some base ∧
      (∀ i fields x rest, i.opcode? = .ok (some .forloop) → i.metadata = .object fields →
        Fields.read fields "body" ≠ .null → i.args = .register (.str x) :: rest →
        c.allocator.stem x = c.allocator.stem index →
        ((c.lowerEach (before ++ entry :: after)).lower (.instruction i)).2 = .ok () ∧
        (c.lowerEach (before ++ entry :: after)).emitted (.instruction i) =
          [.code ⟨.forloop, [.register base], [Fields.read fields "body"]⟩]) ∧
      ∀ x, c.allocator.stem x = c.allocator.stem index →
        (∀ item ∈ entry :: after, item.opcode? = some .forprep → .register (.str x) ∉ item.range) →
        ∃ a, (c.lowerEach (before ++ entry :: after)).allocator.resolve (.register (.str x)) =
          .ok (.register (base + 3), a) := by
  have wf := seeded.wellFormed
  have wfBefore := lowerEach_wellFormed wf before
  have wfEntry := (lower_groups wfBefore entry).1
  have stems := lowerEach_stem wf
  have split : ∀ rest, c.lowerEach (before ++ entry :: rest) =
      ((c.lowerEach before).lower entry).1.lowerEach rest := by
    intro rest
    rw [lowerEach_append, lowerEach_cons]
  have stemEntry : ((c.lowerEach before).lower entry).1.allocator.stem = c.allocator.stem := by
    rw [(lower_groups wfBefore entry).2.1, stems]
  simp only [split, ← stemEntry] at latest
  obtain ⟨tagged, named, succeeded⟩ := entered
  obtain ⟨name, _, _, target, renamed, lines, groups⟩ := lower_entry wfBefore tagged succeeded
  rw [named] at renamed
  cases renamed
  have based : (c.lowerEach (before ++ entry :: after)).allocator.group? (c.allocator.stem index) =
      some ((c.lowerEach before).allocator.entrySlot index) := by
    rw [split, ← stemEntry, lowerEach_group?_of_not_entered wfEntry latest, stemEntry,
      group?_of_groups_set groups, stems, if_pos rfl]
  refine ⟨_, _, target, lines, based, ?_, ?_⟩
  · intro i fields x rest tagged object bodied given same
    apply lower_step tagged object bodied given
    rw [stems, same]
    exact based
  · intro x same outside
    apply resolve_of_peek
    obtain ⟨limit, step, rest, given, hl, hs, laid⟩ :=
      Enters.layOut wfBefore ⟨tagged, named, succeeded⟩
    have unmoved := outside entry (by simp) tagged
    rw [split]
    refine lowerEach_peek wfEntry ?_ (fun item later => outside item (by simp [later])) ?_
    · rw [stemEntry, same, ← stemEntry]
      exact latest
    · rw [laid, wfBefore.peek_layOut index hl hs (Item.range_eq given ▸ unmoved),
        if_pos (by rw [stems, same])]

/-- An entry at one occurrence of `i`. -/
def outerEntry : Item := .instruction (.enter "i_0" (.constant (.int 2)) (.constant (.int 3)))

/-- A loop of another stem in the body of that entry, with a register for its limit. -/
def innerLoop : List Item :=
  [.instruction (.load "n" 0), .instruction (.enter "j" (.register (.str "n")) (.constant (.int 3)))]

theorem latest_entry_governs_around_innerLoop :
    ∃ base copies target, fresh.Enters outerEntry "i_0" ∧
      fresh.emitted outerEntry = copies ++ [.code ⟨.forprep, [.register base], [target]⟩] ∧
      (fresh.lowerEach (outerEntry :: innerLoop)).allocator.group? "i" = some base ∧
      (fresh.lowerEach (outerEntry :: innerLoop)).emitted (.instruction (.next "i_1")) =
        [.code ⟨.forloop, [.register base], [.str "top"]⟩] ∧
      ∃ a, (fresh.lowerEach (outerEntry :: innerLoop)).allocator.resolve
        (.register (.str "i_2")) = .ok (.register (base + 3), a) := by
  have entered : (fresh.lowerEach []).Enters outerEntry "i_0" := ⟨rfl, rfl, rfl⟩
  have latest : ∀ first item other, first ++ [item] <+: innerLoop →
      (fresh.lowerEach ([] ++ outerEntry :: first)).Enters item other →
      fresh.allocator.stem other ≠ fresh.allocator.stem "i_0" := by
    rintro first item other reached ⟨-, named, -⟩
    have membership : item ∈ innerLoop := reached.subset (by simp)
    simp only [innerLoop, List.mem_cons, List.not_mem_nil, or_false] at membership
    rcases membership with rfl | rfl
    · cases named
    · cases named
      decide
  obtain ⟨base, copies, target, lines, based, stepped, resolved⟩ :=
    latest_entry_governs fresh_seeded entered latest
  have next := stepped (.next "i_1") _ _ _ rfl rfl nofun rfl (by decide)
  exact ⟨base, copies, target, entered, lines, based, next.2, resolved "i_2" (by decide)
    (by simp [outerEntry, innerLoop, Item.range, Item.args, Instruction.enter, Instruction.load])⟩

end Context

end BlockAsm
