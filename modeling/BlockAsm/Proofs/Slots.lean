import BlockAsm.Allocator.Loop
import Mathlib

/-!
What each change of an allocator does to its parts: the slot of a name, the occupied slots, the
groups. The two searches of an allocator, for a free slot and for an unbound scratch name, are given
as many tries as there are things in their way, and so they always find what they look for.
-/

namespace BlockAsm

namespace Table

variable {ν κ α : Type} [Keyed ν κ]

@[simp] theorem length_keys (t : Table ν α) : (keys t).length = t.length := by simp [keys]

variable [DecidableEq κ]

theorem has_iff_mem_keys (t : Table ν α) (k : κ) : has t k = true ↔ k ∈ keys t := by
  rw [has, Option.isSome_iff_ne_none, ne_eq, get?_eq_none_iff, not_not]

theorem mem_names_set {t : Table ν α} {name n : ν} {value : α}
    (membership : n ∈ names (set t name value)) : n ∈ names t ∨ n = name := by
  induction t with
  | nil => simpa [set, names] using membership
  | cons e rest ih =>
    by_cases h : Keyed.key e.1 = Keyed.key name
    · left
      simpa [set, names, h] using membership
    · simp only [names] at ih
      simp only [set, h, if_false, names, List.map_cons, List.mem_cons] at membership ⊢
      rcases membership with head | tail
      · exact .inl (.inl head)
      · rcases ih tail with old | new
        · exact .inl (.inr old)
        · exact .inr new

theorem exists_mem_of_get? {t : Table ν α} {k : κ} {value : α} (found : get? t k = some value) :
    ∃ n, (n, value) ∈ t ∧ Keyed.key n = k := by
  induction t with
  | nil => cases found
  | cons e rest ih =>
    unfold get? at found
    split at found
    · rename_i here
      cases found
      exact ⟨e.1, List.mem_cons_self, here⟩
    · obtain ⟨n, membership, key⟩ := ih found
      exact ⟨n, List.mem_cons_of_mem e membership, key⟩

theorem get?_of_mem {t : Table ν α} (distinct : (keys t).Nodup) {n : ν} {value : α}
    (listed : (n, value) ∈ t) : get? t (Keyed.key n) = some value := by
  induction t with
  | nil => cases listed
  | cons e rest ih =>
    obtain ⟨unlisted, others⟩ := List.nodup_cons.mp distinct
    rcases List.mem_cons.mp listed with rfl | later
    · simp [get?]
    · have apart : Keyed.key e.1 ≠ Keyed.key n := by
        intro same
        apply unlisted
        simp only [same]
        exact List.mem_map.mpr ⟨_, later, rfl⟩
      rw [get?, if_neg apart]
      exact ih others later

end Table

namespace Name

@[simp] theorem keyed_key (n : Name) : Keyed.key n = n.key := rfl

theorem eq_str_of_key? {v : Value} {s : String} (h : v.key? = some (.str s)) : v = .str s := by
  cases v with
  | str t => simpa [Value.key?] using h
  | float x => cases hx : x.toInt? <;> simp [Value.key?, hx] at h
  | _ => simp [Value.key?] at h

theorem of?_eq_some {v : Value} {n : Name} (h : of? v = some n) : v.key? = some n.key := by
  unfold of? at h
  split at h
  · cases h
    assumption
  · cases h

end Name

namespace Allocator

/-- The first of `n, n + 1, …` that is not taken, in at most `tries` steps. -/
def firstGap (taken : Nat → Bool) : Nat → Nat → Nat
  | 0, n => n
  | tries + 1, n => if taken n then firstGap taken tries (n + 1) else n

theorem taken_of_lt_firstGap {taken : Nat → Bool} {tries n m : Nat} (lower : n ≤ m)
    (upper : m < firstGap taken tries n) : taken m = true := by
  induction tries generalizing n with
  | zero =>
    unfold firstGap at upper
    omega
  | succ tries ih =>
    unfold firstGap at upper
    split at upper
    · rcases Nat.eq_or_lt_of_le lower with rfl | further
      · assumption
      · exact ih further upper
    · omega

theorem firstGap_eq_or_free (taken : Nat → Bool) (tries n : Nat) :
    firstGap taken tries n = n + tries ∨ taken (firstGap taken tries n) = false := by
  induction tries generalizing n with
  | zero => exact .inl rfl
  | succ tries ih =>
    unfold firstGap
    split
    · rcases ih (n + 1) with exhausted | free
      · left
        omega
      · exact .inr free
    · right
      simp_all

theorem not_forall_mem_of_injective {κ : Type} {f : Nat → κ} (injective : Function.Injective f)
    (xs : List κ) (n : Nat) : ¬ ∀ m, n ≤ m → m ≤ n + xs.length → f m ∈ xs := by
  intro full
  have distinct : ((List.range' n (xs.length + 1)).map f).Nodup :=
    List.Nodup.map injective List.nodup_range'
  have included : (List.range' n (xs.length + 1)).map f ⊆ xs := by
    intro y hy
    obtain ⟨m, hm, rfl⟩ := List.mem_map.mp hy
    have bounds := List.mem_range'_1.mp hm
    exact full m bounds.1 (by omega)
  have bound := (distinct.subperm included).length_le
  simp only [List.length_map, List.length_range'] at bound
  omega

/-- Where being taken means being in a list, as many tries suffice as the list is long. -/
theorem firstGap_free {κ : Type} {f : Nat → κ} (injective : Function.Injective f) {xs : List κ}
    {taken : Nat → Bool} (taken_iff : ∀ m, taken m = true ↔ f m ∈ xs) (n : Nat) :
    f (firstGap taken xs.length n) ∉ xs := by
  rw [← taken_iff]
  rcases firstGap_eq_or_free taken xs.length n with exhausted | free
  · intro last
    apply not_forall_mem_of_injective injective xs n
    intro m lower upper
    rw [← taken_iff]
    rcases Nat.eq_or_lt_of_le upper with rfl | earlier
    · rw [← exhausted]
      exact last
    · exact taken_of_lt_firstGap lower (exhausted ▸ earlier)
  · rw [free]
    exact Bool.false_ne_true

theorem firstFree_eq (occupied : List Int) (tries n : Nat) :
    firstFree occupied tries n = firstGap (fun m => occupied.contains (m : Int)) tries n := by
  induction tries generalizing n with
  | zero => rfl
  | succ tries ih => simp only [firstFree, firstGap, ih]

theorem nextFree_notMem (a : Allocator) : a.nextFree ∉ a.occupied := by
  unfold nextFree
  rw [firstFree_eq]
  exact firstGap_free Nat.cast_injective (by simp) 0

theorem nextFree_nonneg (a : Allocator) : 0 ≤ a.nextFree := Int.natCast_nonneg _

theorem mem_occupied_of_lt_nextFree {a : Allocator} {slot : Int} (lower : 0 ≤ slot)
    (upper : slot < a.nextFree) : slot ∈ a.occupied := by
  unfold nextFree at upper
  rw [firstFree_eq] at upper
  have earlier : slot.toNat <
      firstGap (fun m => a.occupied.contains (m : Int)) a.occupied.length 0 := by
    omega
  have taken := taken_of_lt_firstGap (Nat.zero_le _) earlier
  rwa [List.contains_iff_mem, Int.toNat_of_nonneg lower] at taken

theorem firstScratch_eq (bindings : Table Name Int) (tries n : Nat) :
    firstScratch bindings tries n =
      firstGap (fun m => Table.has bindings (Name.ofText (scratchName m)).key) tries n := by
  induction tries generalizing n with
  | zero => rfl
  | succ tries ih => simp only [firstScratch, firstGap, ih]

theorem scratchName_injective : Function.Injective scratchName := by
  intro m n h
  simpa [scratchName, Nat.repr_inj] using h

def nextScratch (a : Allocator) : String :=
  scratchName (firstScratch a.bindings a.bindings.length a.scratchCount)

theorem lookup_nextScratch (a : Allocator) : a.lookup (.ofText a.nextScratch) = none := by
  unfold lookup nextScratch
  rw [Table.get?_eq_none_iff, firstScratch_eq, ← Table.length_keys a.bindings]
  have injective : Function.Injective fun m => (Name.ofText (scratchName m)).key := by
    intro m n h
    exact scratchName_injective (by simpa using h)
  exact firstGap_free injective (fun m => Table.has_iff_mem_keys _ _) a.scratchCount

/-- The second allocator has the stems and the groups of the first. -/
structure SameGroups (a b : Allocator) : Prop where
  stem : b.stem = a.stem
  groups : b.groups = a.groups

namespace SameGroups

variable {a b c : Allocator}

theorem refl (a : Allocator) : SameGroups a a := ⟨rfl, rfl⟩

theorem trans (first : SameGroups a b) (second : SameGroups b c) : SameGroups a c :=
  ⟨second.stem.trans first.stem, second.groups.trans first.groups⟩

theorem bodySlot? (same : SameGroups a b) (name : String) : b.bodySlot? name = a.bodySlot? name := by
  rw [Allocator.bodySlot?, Allocator.bodySlot?, group?, group?, same.stem, same.groups]

end SameGroups

section Changes

variable (a : Allocator) (name : Name) (slot : Int)

theorem sameGroups_bind : SameGroups a (a.bind name slot) := ⟨rfl, rfl⟩

theorem lookup_bind (other : Name) : (a.bind name slot).lookup other =
    if other.key = name.key then some slot else a.lookup other :=
  Table.get?_set a.bindings name other.key slot

theorem mem_occupied_bind (other : Int) :
    other ∈ (a.bind name slot).occupied ↔ other = slot ∨ other ∈ a.occupied := by
  simp only [bind, occupy, List.contains_iff_mem]
  split
  · rename_i held
    constructor
    · exact .inr
    · rintro (rfl | old)
      · exact held
      · exact old
  · simp [or_comm]

theorem mem_placeholders_bind (other : Int) :
    other ∈ (a.bind name slot).placeholders ↔ other ∈ a.placeholders ∧ other ≠ slot := by
  simp [bind]

theorem mem_names_bind {n : Name} (membership : n ∈ (a.bind name slot).names) :
    n ∈ a.names ∨ n = name :=
  Table.mem_names_set membership

theorem sameGroups_force : SameGroups a (a.force name slot) := by
  unfold force
  split
  · exact .refl a
  · exact a.sameGroups_bind name slot

theorem hold_frame : SameGroups a (a.hold slot) ∧ (a.hold slot).bindings = a.bindings := by
  unfold hold
  split <;> exact ⟨⟨rfl, rfl⟩, rfl⟩

theorem mem_occupied_hold (other : Int) :
    other ∈ (a.hold slot).occupied ↔ other ∈ a.occupied ∨ other = slot := by
  simp only [hold, List.contains_iff_mem]
  split
  · rename_i held
    constructor
    · exact .inl
    · rintro (old | rfl)
      · exact old
      · exact held
  · simp

theorem mem_placeholders_hold (other : Int) : other ∈ (a.hold slot).placeholders ↔
    other ∈ a.placeholders ∨ other = slot ∧ other ∉ a.occupied := by
  simp only [hold, List.contains_iff_mem]
  split
  · rename_i held
    constructor
    · exact .inl
    · rintro (old | ⟨rfl, free⟩)
      · exact old
      · exact absurd held free
  · rename_i free
    simp only [List.mem_append, List.mem_singleton]
    constructor
    · rintro (old | rfl)
      · exact .inl old
      · exact .inr ⟨rfl, free⟩
    · rintro (old | ⟨same, -⟩)
      · exact .inl old
      · exact .inr same

end Changes

/-- Recording a group changes what is found under its stem only. -/
theorem group?_of_groups_set {a b : Allocator} {stem : String} {base : Int}
    (recorded : b.groups = Table.set a.groups (.ofText stem) base) (other : String) :
    b.group? other = if other = stem then some base else a.group? other := by
  rw [group?, recorded, Table.get?_set]
  simp only [Name.keyed_key, Name.key_ofText, Value.Key.str.injEq, group?]

theorem reserve_frame (a : Allocator) (start : Int) (length : Nat) :
    SameGroups a (a.reserve start length) ∧ (a.reserve start length).bindings = a.bindings := by
  induction length generalizing a start with
  | zero => exact ⟨.refl a, rfl⟩
  | succ length ih =>
    obtain ⟨groups, names⟩ := a.hold_frame start
    obtain ⟨others, kept⟩ := ih (a.hold start) (start + 1)
    exact ⟨groups.trans others, kept.trans names⟩

theorem bindings_reserve (a : Allocator) (start : Int) (length : Nat) :
    (a.reserve start length).bindings = a.bindings :=
  (a.reserve_frame start length).2

theorem mem_occupied_reserve (a : Allocator) (start : Int) (length : Nat) (slot : Int) :
    slot ∈ (a.reserve start length).occupied ↔
      slot ∈ a.occupied ∨ start ≤ slot ∧ slot < start + length := by
  induction length generalizing a start with
  | zero =>
    simp only [reserve]
    constructor
    · exact .inl
    · rintro (old | ⟨lower, upper⟩)
      · exact old
      · omega
  | succ length ih =>
    simp only [reserve, ih, mem_occupied_hold]
    constructor
    · rintro ((old | rfl) | ⟨lower, upper⟩)
      · exact .inl old
      · right; omega
      · right; omega
    · rintro (old | ⟨lower, upper⟩)
      · exact .inl (.inl old)
      · by_cases first : slot = start
        · exact .inl (.inr first)
        · right; omega

theorem mem_placeholders_reserve (a : Allocator) (start : Int) (length : Nat) (slot : Int) :
    slot ∈ (a.reserve start length).placeholders ↔
      slot ∈ a.placeholders ∨ (start ≤ slot ∧ slot < start + length) ∧ slot ∉ a.occupied := by
  induction length generalizing a start with
  | zero =>
    simp only [reserve]
    constructor
    · exact .inl
    · rintro (old | ⟨⟨lower, upper⟩, -⟩)
      · exact old
      · omega
  | succ length ih =>
    rw [reserve, ih, mem_placeholders_hold, mem_occupied_hold]
    by_cases first : slot = start
    · subst first
      have here : slot ≤ slot ∧ slot < slot + (length + 1 : Nat) := by omega
      simp only [here, and_self, true_and, or_true, not_true_eq_false, and_false, or_false]
    · have same : (start + 1 ≤ slot ∧ slot < start + 1 + length) ↔
          start ≤ slot ∧ slot < start + (length + 1 : Nat) := by omega
      simp only [first, same, false_and, or_false]

theorem place_of_lookup {a : Allocator} {name : String} {slot : Int}
    (bound : a.lookup (.ofText name) = some slot) : a.place name = (slot, a) := by
  simp [place, peek, bound]

theorem bodySlot?_of_groupless {a : Allocator} (groupless : a.groups = []) (name : String) :
    a.bodySlot? name = none := by
  rw [bodySlot?, group?, groupless]
  rfl

/-- Placing an unbound name binds it, to the last slot of its stem's group or else to a free one. -/
theorem place_of_unbound {a : Allocator} {name : String}
    (unbound : a.lookup (.ofText name) = none) :
    a.place name = ((a.bodySlot? name).getD a.nextFree,
      a.bind (.ofText name) ((a.bodySlot? name).getD a.nextFree)) := by
  cases body : a.bodySlot? name <;> simp [place, peek, unbound, body]

theorem placeValue_str (a : Allocator) (s : String) : a.placeValue (.str s) = .ok (a.place s) := by
  cases known : a.lookup (.ofText s) with
  | none => simp [placeValue, lookupValue, nameOf, Name.of?_str, nameText, Except.map, known]
  | some slot =>
    rw [place_of_lookup known]
    simp [placeValue, lookupValue, nameOf, Name.of?_str, Except.map, known]

theorem sameGroups_place (a : Allocator) (name : String) : SameGroups a (a.place name).2 := by
  cases known : a.lookup (.ofText name) with
  | some slot =>
    rw [place_of_lookup known]
    exact .refl a
  | none =>
    rw [place_of_unbound known]
    exact a.sameGroups_bind _ _

theorem lookup_place_self (a : Allocator) (name : String) :
    (a.place name).2.lookup (.ofText name) = some (a.place name).1 := by
  cases known : a.lookup (.ofText name) with
  | some slot => rw [place_of_lookup known, known]
  | none => rw [place_of_unbound known, lookup_bind, if_pos rfl]

theorem lookup_place_of_lookup {a : Allocator} (name : String) {other : Name} {slot : Int}
    (bound : a.lookup other = some slot) : (a.place name).2.lookup other = some slot := by
  cases known : a.lookup (.ofText name) with
  | some held => rwa [place_of_lookup known]
  | none =>
    rw [place_of_unbound known, lookup_bind, if_neg, bound]
    intro same
    unfold lookup at known bound
    rw [same, known] at bound
    cases bound

/-- A scratch register is an unbound name that is placed; the count of scratch names goes up. -/
theorem scratch_eq (a : Allocator) : ∃ count,
    a.scratch = { a with scratchCount := count }.place a.nextScratch :=
  ⟨_, rfl⟩

/-- The slot of a scratch register comes from its stem's group, or else it is the next free one. -/
theorem scratch_eq_bind (a : Allocator) : ∃ count,
    a.scratch = ((a.bodySlot? a.nextScratch).getD a.nextFree,
      { a.bind (.ofText a.nextScratch) ((a.bodySlot? a.nextScratch).getD a.nextFree) with
        scratchCount := count }) := by
  obtain ⟨count, placed⟩ := a.scratch_eq
  have unbound : Allocator.lookup { a with scratchCount := count } (.ofText a.nextScratch) = none :=
    a.lookup_nextScratch
  exact ⟨count, placed.trans (place_of_unbound unbound)⟩

theorem lookup_scratch (a : Allocator) :
    a.scratch.2.lookup (.ofText a.nextScratch) = some a.scratch.1 := by
  obtain ⟨count, placed⟩ := a.scratch_eq
  rw [placed]
  exact lookup_place_self _ _

end Allocator

end BlockAsm
