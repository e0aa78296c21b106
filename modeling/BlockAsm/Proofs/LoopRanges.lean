import BlockAsm.Proofs.LoopEntry

/-!
The slots of different loops. A loop whose index is unbound when it is entered gets slots that nothing
has held before. A loop whose index is bound begins at the index's slot, and the four slots from there
on may belong to another loop. So the groups stay apart in a run exactly if each loop with a bound
index is entered clear of the groups of other stems; no takeover need be reported when one is not.
-/

namespace BlockAsm

namespace Allocator

def groupSlots (base : Int) : Set Int := Set.Icc base (base + 3)

theorem disjoint_groupSlots_iff {b d : Int} :
    Disjoint (groupSlots b) (groupSlots d) ↔ b + 3 < d ∨ d + 3 < b := by
  rw [Set.disjoint_left]
  constructor
  · intro apart
    by_contra near
    refine apart (a := max b d) ?_ ?_
    · exact Set.mem_Icc.mpr ⟨le_max_left b d, by omega⟩
    · exact Set.mem_Icc.mpr ⟨le_max_right b d, by omega⟩
  · rintro apart slot ⟨above, below⟩ ⟨above', below'⟩
    omega

def GroupsApart (a : Allocator) : Prop :=
  ∀ ⦃first second : String⦄ ⦃b d : Int⦄, first ≠ second → a.group? first = some b →
    a.group? second = some d → Disjoint (groupSlots b) (groupSlots d)

/-- The four slots from a bound index on belong to no loop of another stem. -/
def Clear (a : Allocator) (index : String) : Prop :=
  ∀ ⦃slot base : Int⦄ ⦃stem : String⦄, a.lookup (.ofText index) = some slot →
    stem ≠ a.stem index → a.group? stem = some base →
    Disjoint (groupSlots slot) (groupSlots base)

/-- An unbound index is always clear of other groups: they are occupied, and its slot is above. -/
theorem WellFormed.clear_iff {a : Allocator} (wf : a.WellFormed) (index : String) :
    a.Clear index ↔ ∀ ⦃stem : String⦄ ⦃base : Int⦄, stem ≠ a.stem index →
      a.group? stem = some base →
      Disjoint (groupSlots (a.entrySlot index)) (groupSlots base) := by
  cases known : a.lookup (.ofText index) with
  | some slot =>
    have start : a.entrySlot index = slot := by simp [entrySlot, known]
    rw [start]
    constructor
    · intro clear stem base other based
      exact clear known other based
    · intro apart place base stem found other based
      rw [known] at found
      cases found
      exact apart other based
  | none =>
    have start : a.entrySlot index = a.nextFree := by simp [entrySlot, known]
    constructor
    · intro _ stem base _ based
      have held := wf.grouped based (Int.le_add_of_nonneg_right (by decide)) (Int.le_refl (base + 3))
      have below := ((wf.mem_occupied_iff _).mp held).2
      rw [start]
      exact disjoint_groupSlots_iff.mpr (.inr below)
    · intro _ slot base stem found
      rw [known] at found
      cases found

theorem GroupsApart.iff_of_groups_set {a b : Allocator} (apart : a.GroupsApart) {stem : String}
    {base : Int} (recorded : b.groups = Table.set a.groups (.ofText stem) base) :
    b.GroupsApart ↔ ∀ ⦃other : String⦄ ⦃d : Int⦄, other ≠ stem → a.group? other = some d →
      Disjoint (groupSlots base) (groupSlots d) := by
  have found := group?_of_groups_set recorded
  constructor
  · intro after other d different based
    refine after (Ne.symm different) ?_ ?_
    · rw [found, if_pos rfl]
    · rwa [found, if_neg different]
  · intro clear first second b d different basedFirst basedSecond
    rw [found] at basedFirst basedSecond
    split at basedFirst
    · rename_i here
      cases basedFirst
      have elsewhere : second ≠ stem := fun same => different (here.trans same.symm)
      rw [if_neg elsewhere] at basedSecond
      exact clear elsewhere basedSecond
    · rename_i elsewhere
      split at basedSecond
      · cases basedSecond
        exact (clear elsewhere basedFirst).symm
      · exact apart different basedFirst basedSecond

end Allocator

namespace Context

open Allocator

/-- Lowering the item enters a loop with this index. -/
def Enters (c : Context) (item : Item) (index : String) : Prop :=
  item.opcode? = some .forprep ∧ item.index? = some index ∧ (c.lower item).2 = .ok ()

/-- The group of a stem stays unless a loop of the stem is entered. -/
theorem lower_group?_of_not_entered {c : Context} (wf : c.allocator.WellFormed) {item : Item}
    {stem : String} (apart : ∀ index, c.Enters item index → c.allocator.stem index ≠ stem) :
    (c.lower item).1.allocator.group? stem = c.allocator.group? stem := by
  rcases (lower_groups wf item).2.2 with kept | ⟨tagged, succeeded⟩
  · rw [group?, kept, group?]
  · obtain ⟨index, limit, step, target, named, -, groups⟩ := lower_entry wf tagged succeeded
    rw [group?_of_groups_set groups, if_neg (Ne.symm (apart index ⟨tagged, named, succeeded⟩))]

/-- One step keeps the groups apart exactly if the loop it enters, if any, is clear of the others. -/
theorem lower_groupsApart_iff {c : Context} (wf : c.allocator.WellFormed)
    (apart : c.allocator.GroupsApart) (item : Item) :
    (c.lower item).1.allocator.GroupsApart ↔
      ∀ index, c.Enters item index → c.allocator.Clear index := by
  by_cases entering : item.opcode? = some .forprep ∧ (c.lower item).2 = .ok ()
  · obtain ⟨tagged, succeeded⟩ := entering
    obtain ⟨index, limit, step, target, named, -, groups⟩ := lower_entry wf tagged succeeded
    rw [apart.iff_of_groups_set groups, ← wf.clear_iff index]
    constructor
    · rintro clear other ⟨-, renamed, -⟩
      rw [named] at renamed
      cases renamed
      exact clear
    · exact fun clear => clear index ⟨tagged, named, succeeded⟩
  · have groups := (lower_groups wf item).2.2.resolve_right entering
    have kept : (c.lower item).1.allocator.GroupsApart := by
      intro first second b d different basedFirst basedSecond
      rw [group?, groups] at basedFirst basedSecond
      exact apart different basedFirst basedSecond
    exact iff_of_true kept fun index entered => absurd ⟨entered.1, entered.2.2⟩ entering

theorem Seeded.groupsApart {c : Context} (seeded : c.Seeded) : c.allocator.GroupsApart := by
  obtain ⟨stem, grown⟩ := seeded.grows
  intro first second b d _ based
  rw [group?, grown.sameGroups.groups] at based
  cases based

/-- The groups of different stems are apart at every point of a run exactly if every loop is entered
with an index that is unbound or clear of the groups of other stems. -/
theorem groups_apart_iff {c : Context} (seeded : c.Seeded) (items : List Item) :
    (∀ first, first <+: items → (c.lowerEach first).allocator.GroupsApart) ↔
      ∀ first item index, first ++ [item] <+: items → (c.lowerEach first).Enters item index →
        (c.lowerEach first).allocator.Clear index := by
  have wf := lowerEach_wellFormed seeded.wellFormed
  have step : ∀ first item, c.lowerEach (first ++ [item]) = ((c.lowerEach first).lower item).1 :=
    fun first item => c.lowerEach_append first [item]
  constructor
  · intro apart first item index reached entered
    have before := apart first ((List.prefix_append first [item]).trans reached)
    have after := apart _ reached
    rw [step] at after
    exact (lower_groupsApart_iff (wf first) before item).mp after index entered
  · intro clear first
    induction first using List.reverseRecOn with
    | nil => exact fun _ => seeded.groupsApart
    | append_singleton first item ih =>
      intro reached
      have before := ih ((List.prefix_append first [item]).trans reached)
      rw [step]
      exact (lower_groupsApart_iff (wf first) before item).mpr fun index entered =>
        clear first item index reached entered

/-- Two loops whose indices are loaded first, and which are then entered in the other order. -/
def swappedLoops : List Item :=
  [.instruction (.load "j" 0), .instruction (.load "i" 1),
    .instruction (.enter "i" (.constant (.int 2)) (.constant (.int 3))),
    .instruction (.enter "j" (.constant (.int 2)) (.constant (.int 3)))]

theorem groups_apart_iff_at_swappedLoops :
    fresh.Seeded ∧
      ((∀ first, first <+: swappedLoops → (fresh.lowerEach first).allocator.GroupsApart) ↔
        ∀ first item index, first ++ [item] <+: swappedLoops →
          (fresh.lowerEach first).Enters item index →
          (fresh.lowerEach first).allocator.Clear index) :=
  ⟨fresh_seeded, groups_apart_iff fresh_seeded swappedLoops⟩

/-- The second loop takes the slots of the first but one, and no takeover is reported. -/
theorem swappedLoops_groups_overlap :
    ∃ d, fresh.lowerAll (.str "entry") swappedLoops = (d, .ok ()) ∧ d.takeovers = [] ∧
      d.allocator.group? "i" = some 1 ∧ d.allocator.group? "j" = some 0 ∧
      ¬ d.allocator.GroupsApart := by
  refine ⟨fresh.lowerEach swappedLoops, rfl, rfl, rfl, rfl, fun apart => ?_⟩
  have different : "i" ≠ "j" := by decide
  have overlap : Disjoint (groupSlots 1) (groupSlots 0) := apart different rfl rfl
  exact absurd (disjoint_groupSlots_iff.mp overlap) (by decide)

end Context

end BlockAsm
