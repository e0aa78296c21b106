import BlockAsm.Proofs.SharedSlots

/-!
The slots that returned constants are loaded into. Such a slot belongs to a scratch name, and unless a
loop has that name for its stem the slot is one that nothing has held. From then on it is the scratch
name's alone: other names are bound to free slots or to the last slots of groups, and no group has it. A
loop that is entered may still take the slot over, but then it reports the scratch name.
-/

namespace BlockAsm

namespace Allocator

/-- Neither a name nor a reservation nor a group has held the slot. -/
structure Untouched (a : Allocator) (slot : Int) : Prop where
  free : slot ∉ a.occupied
  unbound : ∀ name, a.lookup name ≠ some slot
  ungrouped : ∀ stem base, a.group? stem = some base → slot ∉ groupSlots base

theorem WellFormed.untouched {a : Allocator} (wf : a.WellFormed) {slot : Int}
    (free : slot ∉ a.occupied) : a.Untouched slot where
  free := free
  unbound _ found := free (wf.bound found)
  ungrouped _ _ based within := free (wf.grouped based within.1 within.2)

/-- The slot is its owner's alone, and no group has it. -/
structure Owns (a : Allocator) (owner : String) (slot : Int) : Prop where
  bound : a.lookup (.ofText owner) = some slot
  alone : ∀ x, a.lookup (.ofText x) = some slot → x = owner
  ungrouped : ∀ stem base, a.group? stem = some base → slot ∉ groupSlots base

namespace Owns

variable {a b : Allocator} {owner : String} {slot : Int}

theorem of_eq (owns : a.Owns owner slot) (groups : b.groups = a.groups)
    (bindings : b.bindings = a.bindings) : b.Owns owner slot where
  bound := by
    rw [lookup, bindings]
    exact owns.bound
  alone := by
    simp only [lookup, bindings]
    exact owns.alone
  ungrouped := by
    simp only [group?, groups]
    exact owns.ungrouped

theorem bodySlot_ne (owns : a.Owns owner slot) (wf : a.WellFormed) (name : String) :
    (a.bodySlot? name).getD a.nextFree ≠ slot := by
  rintro rfl
  cases based : a.group? (a.stem name) with
  | none =>
    apply a.nextFree_notMem
    have held := wf.bound owns.bound
    rwa [bodySlot?, based] at held
  | some base =>
    apply owns.ungrouped _ base based
    rw [bodySlot?, based]
    exact ⟨Int.le_add_of_nonneg_right (by decide), Int.le_refl _⟩

theorem place (owns : a.Owns owner slot) (wf : a.WellFormed) (name : String) :
    (a.place name).2.Owns owner slot := by
  refine ⟨lookup_place_of_lookup name owns.bound, ?_, ?_⟩
  · intro x found
    cases known : a.lookup (.ofText name) with
    | some held =>
      rw [place_of_lookup known] at found
      exact owns.alone x found
    | none =>
      rw [place_of_unbound known, lookup_bind] at found
      split at found
      · exact absurd (Option.some.inj found) (owns.bodySlot_ne wf name)
      · exact owns.alone x found
  · intro stem base based
    rw [group?, (a.sameGroups_place name).groups] at based
    exact owns.ungrouped stem base based

theorem grows (owns : a.Owns owner slot) (wf : a.WellFormed) (grown : Grows a b) :
    b.Owns owner slot := by
  have kept : b.WellFormed ∧ b.Owns owner slot := by
    apply grown.keeps (P := fun c => c.WellFormed ∧ c.Owns owner slot) ⟨wf, owns⟩
    · exact fun _ name kept => ⟨kept.1.place name, kept.2.place kept.1 name⟩
    · exact fun _ n kept => ⟨kept.1.withCount n, kept.2.of_eq rfl rfl⟩
  exact kept.2

theorem resolve_ne (owns : a.Owns owner slot) (wf : a.WellFormed) {o : Operand}
    (other : o ≠ .register (.str owner)) : a.resolve o ≠ .ok (.register slot, b) := by
  intro resolved
  cases o with
  | constant index => cases resolved
  | upvalue index => cases resolved
  | other v => simp [resolve, refuse] at resolved
  | register v =>
    simp only [resolve] at resolved
    split at resolved
    · rename_i found e placed
      cases resolved
      obtain ⟨x, rfl, bound⟩ := wf.placeValue_eq_ok placed
      have held := a.lookup_place_self x
      have after := owns.place wf x
      rw [bound] at held after
      exact other (by rw [after.alone x held])
    · cases resolved

end Owns

/-- A scratch register whose name is no loop's stem gets a slot that nothing has held. -/
theorem WellFormed.scratch_owns {a : Allocator} (wf : a.WellFormed)
    (ungrouped : a.group? (a.stem a.nextScratch) = none) :
    a.Untouched a.scratch.1 ∧ a.scratch.2.Owns a.nextScratch a.scratch.1 := by
  obtain ⟨count, placed⟩ := a.scratch_eq_bind
  have groupless : a.bodySlot? a.nextScratch = none := congrArg (Option.map (· + 3)) ungrouped
  rw [groupless, Option.getD_none] at placed
  have untouched : a.Untouched a.nextFree := wf.untouched a.nextFree_notMem
  rw [placed]
  refine ⟨untouched, ?_, ?_, untouched.ungrouped⟩
  · exact (lookup_bind ..).trans (if_pos rfl)
  · intro x found
    have bound := (lookup_bind a (.ofText a.nextScratch) a.nextFree (.ofText x)).symm.trans found
    split at bound
    · rename_i same
      simpa using same
    · exact absurd bound (untouched.unbound (.ofText x))

/-- A loop that is laid out leaves the slot to its owner unless it takes the slot over. -/
theorem Owns.layOut {a : Allocator} {owner index : String} {slot : Int} {limit step : Operand}
    (owns : a.Owns owner slot) (wf : a.WellFormed) (hl : limit.Resolvable) (hs : step.Resolvable)
    (apart : a.stem index ≠ a.stem owner) (outside : .register (.str owner) ∉ [limit, step])
    (beside : ¬ (a.entrySlot index < slot ∧ slot ≤ a.entrySlot index + 3)) :
    (a.layOut (.register (.str index)) limit step).1.Owns owner slot := by
  obtain ⟨b, range, -, -, laid, -, -, groups⟩ := wf.layOut index hl hs
  have after := wf.lookup_layOut index hl hs
  rw [laid] at after ⊢
  have elsewhere : a.entrySlot index ≠ slot := by
    rintro rfl
    cases known : a.lookup (.ofText index) with
    | none =>
      apply a.nextFree_notMem
      have held := wf.bound owns.bound
      rwa [entrySlot, known] at held
    | some held =>
      have own := owns.alone index (by rw [entrySlot, known, Option.getD_some])
      exact apart (by rw [own])
  refine ⟨?_, ?_, ?_⟩
  · rw [after, a.seat?_of_outside index outside, if_neg, Option.none_or, owns.bound]
    exact fun same => apart same.1.symm
  · intro x found
    rw [after, Option.or_eq_some_iff] at found
    rcases found with seat | ⟨-, kept⟩
    · exact absurd (seat?_bounds seat) beside
    · exact owns.alone x kept
  · intro stem base based
    rw [group?_of_groups_set groups] at based
    split at based
    · cases based
      rintro ⟨above, below⟩
      exact beside ⟨lt_of_le_of_ne above elsewhere, below⟩
    · exact owns.ungrouped stem base based

/-- From here on, no operand but the owner's register is resolved to the slot as names are placed. -/
def KeptFor (a : Allocator) (owner : String) (slot : Int) : Prop :=
  ∀ b o e, Grows a b → o ≠ .register (.str owner) → b.resolve o ≠ .ok (.register slot, e)

theorem Owns.keptFor {a : Allocator} {owner : String} {slot : Int} (owns : a.Owns owner slot)
    (wf : a.WellFormed) : a.KeptFor owner slot :=
  fun _ _ _ grown other => (owns.grows wf grown).resolve_ne (wf.grows grown) other

end Allocator

namespace Context

open Allocator

/-- A loop that the run enters reports the name. -/
def Overwrites (c : Context) (items : List Item) (name : String) : Prop :=
  ∃ first item index, first ++ [item] <+: items ∧ (c.lowerEach first).Enters item index ∧
    name ∈ (c.lowerEach first).overwritten item

theorem lower_owns {c : Context} (wf : c.allocator.WellFormed) {owner : String} {slot : Int}
    (owns : c.allocator.Owns owner slot) (item : Item)
    (apart : ∀ index, c.Enters item index → c.allocator.stem index ≠ c.allocator.stem owner ∧
      .register (.str owner) ∉ item.range ∧ owner ∉ c.overwritten item) :
    (c.lower item).1.allocator.Owns owner slot := by
  rcases lower_allocator_cases wf item with grown | ⟨same, bindings⟩ | ⟨tagged, succeeded⟩
  · exact owns.grows wf grown
  · exact owns.of_eq same.groups bindings
  · obtain ⟨index, _, _, _, named, -⟩ := lower_entry wf tagged succeeded
    have entered : c.Enters item index := ⟨tagged, named, succeeded⟩
    obtain ⟨different, outside, silent⟩ := apart index entered
    obtain ⟨limit, step, rest, given, hl, hs, laid⟩ := entered.layOut wf
    rw [Item.range_eq given] at outside
    rw [laid]
    apply owns.layOut wf hl hs different outside
    rintro ⟨above, below⟩
    exact silent (mem_overwritten wf hl hs given outside different.symm owns.bound above below)

theorem lowerEach_owns {c : Context} (wf : c.allocator.WellFormed) {owner : String} {slot : Int}
    (owns : c.allocator.Owns owner slot) {items : List Item}
    (apart : ∀ entry ∈ items, entry.opcode? = some .forprep →
      (∀ x, entry.index? = some x → c.allocator.stem x ≠ c.allocator.stem owner) ∧
        .register (.str owner) ∉ entry.range)
    (silent : ¬ c.Overwrites items owner) : (c.lowerEach items).allocator.Owns owner slot := by
  apply lowerEach_invariant (P := fun d => d.allocator.Owns owner slot) owns
  intro first item reached kept
  apply lower_owns (lowerEach_wellFormed wf first) kept
  intro index entered
  have listed : item ∈ items := reached.subset (by simp)
  obtain ⟨different, outside⟩ := apart item listed entered.1
  rw [lowerEach_stem wf]
  refine ⟨different index entered.2.1, outside, ?_⟩
  intro reported
  exact silent ⟨first, item, index, reached, entered, reported⟩

theorem lowerEach_group?_eq_none {c : Context} (wf : c.allocator.WellFormed) {stem : String}
    (groupless : c.allocator.group? stem = none) {items : List Item}
    (apart : ∀ entry ∈ items, entry.opcode? = some .forprep →
      ∀ x, entry.index? = some x → c.allocator.stem x ≠ stem) :
    (c.lowerEach items).allocator.group? stem = none := by
  apply lowerEach_invariant (P := fun d => d.allocator.group? stem = none) groupless
  intro first item reached none
  rw [lower_group?_of_not_entered (lowerEach_wellFormed wf first), none]
  intro index entered
  rw [lowerEach_stem wf]
  exact apart item (reached.subset (by simp)) entered.1 index entered.2.1

/-- A constant among returned operands takes the scratch register that is next when those before it
are resolved. -/
theorem resolveReturned_scratch {c d : Context} {before : List Operand} {tokens : List Token}
    (reached : c.resolveReturned before = (d, .ok tokens)) (index : Value) (after : List Operand) :
    Grows d.allocator.scratch.2
      (c.resolveReturned (before ++ .constant index :: after)).1.allocator := by
  induction before generalizing c tokens with
  | nil =>
    obtain ⟨rfl, -⟩ := Prod.mk.inj reached
    rw [List.nil_append, resolveReturned_cons]
    exact resolveReturned_grows ((c.withAllocator c.allocator.scratch.2).writeCode .loadk
      [.register c.allocator.scratch.1, .constant index] []) after
  | cons o rest ih =>
    obtain ⟨t, e, ts, first, others, rfl⟩ := resolveReturned_cons_eq_ok reached
    rw [List.cons_append, resolveReturned_cons, first]
    exact ih others

theorem allocator_lower_of_ret {c : Context} {i : Instruction}
    (returns : i.opcode? = .ok (some .ret)) :
    (c.lower (.instruction i)).1.allocator = (c.resolveReturned i.args).1.allocator := by
  rw [lower, Instruction.recipe_of_ret returns, perform]
  rcases c.resolveReturned i.args with ⟨d, _ | tokens⟩ <;> rfl

/-- A returned constant is loaded into a slot that nothing has held, and no register but the scratch
name's own is resolved to that slot afterwards unless a loop has reported the scratch name. Loops whose
index has the scratch name for its stem, or whose limit or step it is, are left aside. -/
theorem scratch_slot_kept {c : Context} (seeded : c.Seeded) (first rest : List Item)
    {i : Instruction} (returns : i.opcode? = .ok (some .ret)) (before after : List Operand) {index : Value}
    (given : i.args = before ++ .constant index :: after) {d : Context} {tokens : List Token}
    (reached : (c.lowerEach first).resolveReturned before = (d, .ok tokens))
    (apart : ∀ entry ∈ first ++ rest, entry.opcode? = some .forprep →
      (∀ x, entry.index? = some x →
        c.allocator.stem x ≠ c.allocator.stem d.allocator.nextScratch) ∧
      .register (.str d.allocator.nextScratch) ∉ entry.range) :
    d.allocator.Untouched d.allocator.scratch.1 ∧
      d.allocator.scratch.2.KeptFor d.allocator.nextScratch d.allocator.scratch.1 ∧
      ∀ later, later <+: rest →
        ¬ (c.lowerEach (first ++ [.instruction i])).Overwrites later d.allocator.nextScratch →
        (c.lowerEach (first ++ .instruction i :: later)).allocator.KeptFor d.allocator.nextScratch
          d.allocator.scratch.1 := by
  have wf := seeded.wellFormed
  have wfFirst := lowerEach_wellFormed wf first
  have grown : Grows (c.lowerEach first).allocator d.allocator := by
    have grown := (c.lowerEach first).resolveReturned_grows before
    rwa [reached] at grown
  have wfd := wfFirst.grows grown
  have stems : d.allocator.stem = c.allocator.stem := by
    rw [grown.sameGroups.stem, lowerEach_stem wf]
  have groupless : c.allocator.groups = [] := by
    obtain ⟨stem, seeded⟩ := seeded.grows
    exact seeded.sameGroups.groups
  have ungrouped : d.allocator.group? (d.allocator.stem d.allocator.nextScratch) = none := by
    rw [stems, group?, grown.sameGroups.groups]
    apply lowerEach_group?_eq_none wf
    · rw [group?, groupless]
      rfl
    · intro entry listed tagged
      exact (apart entry (List.mem_append_left _ listed) tagged).1
  obtain ⟨untouched, owns⟩ := wfd.scratch_owns ungrouped
  refine ⟨untouched, owns.keptFor wfd.scratch, ?_⟩
  intro later earlier silent
  have kept : (c.lowerEach (first ++ [.instruction i])).allocator.Owns d.allocator.nextScratch
      d.allocator.scratch.1 := by
    rw [lowerEach_append, lowerEach_cons, lowerEach_nil, allocator_lower_of_ret returns, given]
    exact owns.grows wfd.scratch (resolveReturned_scratch reached index after)
  have wfKept := lowerEach_wellFormed wf (first ++ [.instruction i])
  have split : first ++ .instruction i :: later = first ++ [.instruction i] ++ later := by simp
  rw [split, lowerEach_append]
  refine Owns.keptFor ?_ (lowerEach_wellFormed wfKept later)
  apply lowerEach_owns wfKept kept _ silent
  intro entry listed tagged
  rw [lowerEach_stem wf]
  exact apart entry (List.mem_append_right _ (earlier.subset listed)) tagged

end Context

namespace Instruction

def giveBack (operand : Operand) : Instruction := { tag := .str "return", args := [operand] }

def copy (target source : String) : Instruction :=
  { tag := .str "move", dest := some (.register (.str target)), args := [.register (.str source)] }

end Instruction

namespace Context

def returned : Item := .instruction (.giveBack (.constant (.int 0)))

/-- A loop whose index is bound after the constant was returned, with a register for its limit. -/
def laterLoop : List Item :=
  [.instruction (.load "i" 1),
    .instruction (.enter "i" (.register (.str "n")) (.constant (.int 2)))]

theorem scratch_slot_kept_before_laterLoop :
    fresh.Seeded ∧ fresh.allocator.Untouched 0 ∧
      (fresh.lowerEach [returned]).lines =
        [.code ⟨.loadk, [.register 0, .constant (.int 0)], []⟩,
          .code ⟨.ret, [.register 0], [.int 2]⟩] ∧
      (fresh.lowerEach (returned :: laterLoop)).allocator.KeptFor "%tmp0" 0 := by
  have apart : ∀ entry ∈ [] ++ laterLoop, entry.opcode? = some .forprep →
      (∀ x, entry.index? = some x → fresh.allocator.stem x ≠ fresh.allocator.stem "%tmp0") ∧
        .register (.str "%tmp0") ∉ entry.range := by
    intro entry listed tagged
    simp only [laterLoop, List.nil_append, List.mem_cons, List.not_mem_nil, or_false] at listed
    rcases listed with rfl | rfl
    · cases tagged
    · refine ⟨?_, by simp [Item.range, Item.args, Instruction.enter]⟩
      rintro x named
      cases named
      decide
  have silent : ¬ (fresh.lowerEach [returned]).Overwrites laterLoop "%tmp0" := by
    rintro ⟨first, item, index, reached, ⟨tagged, -⟩, reported⟩
    rcases first with _ | ⟨a, _ | ⟨b, rest⟩⟩ <;>
      simp only [laterLoop, List.nil_append, List.cons_append, List.cons_prefix_cons,
        List.nil_prefix, List.prefix_nil, List.append_eq_nil_iff, reduceCtorEq, and_true,
        and_false] at reached
    · subst reached
      cases tagged
    · obtain ⟨rfl, rfl⟩ := reached
      revert reported
      decide
  have kept := scratch_slot_kept fresh_seeded [] laterLoop
    (i := .giveBack (.constant (.int 0))) rfl [] [] rfl rfl apart
  exact ⟨fresh_seeded, kept.1, rfl, kept.2.2 laterLoop List.prefix_rfl silent⟩

/-- The constant is loaded into the slot after the index, and the loop's limit is read there later. -/
theorem loop_takes_scratch_slot :
    (fresh.lowerEach [.instruction (.load "i" 0), returned,
      .instruction (.enter "i" (.register (.str "n")) (.constant (.int 1))),
      .instruction (.copy "x" "n")]).lines =
      [.code ⟨.loadk, [.register 0, .constant (.int 0)], []⟩,
        .code ⟨.loadk, [.register 1, .constant (.int 0)], []⟩,
        .code ⟨.ret, [.register 1], [.int 2]⟩,
        .code ⟨.loadk, [.register 2, .constant (.int 1)], []⟩,
        .code ⟨.forprep, [.register 0], [.str "exit"]⟩,
        .code ⟨.move, [.register 4, .register 1], []⟩] := rfl

end Context

end BlockAsm
