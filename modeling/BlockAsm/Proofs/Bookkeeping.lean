import BlockAsm.Proofs.Occupancy

/-!
The books of an allocator that is used from outside in any order: names are resolved, declared and forced
to slots, slots are reserved, scratch registers are taken and groups are recorded. What was bound is read
off the answers alone: every name has the slot that it was given last. Whatever is done, the occupied slots
are those that were given to a name or reserved, the placeholders are those that were reserved while they
were free and not given to a name since, and the names stand in the order in which they were first given a
slot. The next free slot is the first one that was never held, so first fit never gives a slot out again,
not even one that its name has left.

In contrast to allocators that lowering leads to, there may be gaps between occupied slots, and names may
be other than texts.
-/

namespace BlockAsm

namespace Allocator

inductive Action where
  | resolve (o : Operand)
  | seed (names : List Value)
  | force (name : Name) (slot : Int)
  | reserve (start : Int) (length : Nat)
  | scratch
  | group (stem : Name) (base : Int)

def act (a : Allocator) : Action → Allocator
  | .resolve o =>
    match a.resolve o with
    | .ok (_, b) => b
    | .error _ => a
  | .seed names => (a.seed names).1
  | .force name slot => a.force name slot
  | .reserve start length => a.reserve start length
  | .scratch => a.scratch.2
  | .group stem base => a.setGroup stem base

/-- The allocator after some actions. -/
def after (a : Allocator) (actions : List Action) : Allocator := actions.foldl act a

@[simp] theorem after_nil (a : Allocator) : a.after [] = a := rfl

@[simp] theorem after_cons (a : Allocator) (action : Action) (rest : List Action) :
    a.after (action :: rest) = (a.act action).after rest := rfl

theorem after_append (a : Allocator) (first second : List Action) :
    a.after (first ++ second) = (a.after first).after second :=
  List.foldl_append

/-- The reservation that an action makes covers a slot. -/
def Action.Covers : Action → Int → Prop
  | .reserve start length, slot => start ≤ slot ∧ slot < start + length
  | _, _ => False

def answer? (a : Allocator) (o : Operand) : Option (Name × Int) :=
  match o.name?, a.resolve o with
  | some name, .ok (.register slot, _) => some (name, slot)
  | _, _ => none

/-- The slots that declared names are given, each as if it were resolved. -/
def seedAnswers (a : Allocator) : List Value → List (Name × Int)
  | [] => []
  | v :: rest =>
    match a.resolve (.register v) with
    | .ok (_, b) => (a.answer? (.register v)).toList ++ b.seedAnswers rest
    | .error _ => []

/-- The names that an action gives slots to, and these slots, as it answers with them. -/
def gives (a : Allocator) : Action → List (Name × Int)
  | .resolve o => (a.answer? o).toList
  | .seed names => a.seedAnswers names
  | .force name slot => [(name, slot)]
  | .scratch => [(.ofText a.nextScratch, a.scratch.1)]
  | .reserve _ _ => []
  | .group _ _ => []

/-- What actions give, from the first to the last. -/
def log (a : Allocator) : List Action → List (Name × Int)
  | [] => []
  | action :: rest => a.gives action ++ (a.act action).log rest

theorem log_append (a : Allocator) (first second : List Action) :
    a.log (first ++ second) = a.log first ++ (a.after first).log second := by
  induction first generalizing a with
  | nil => rfl
  | cons action rest ih => rw [List.cons_append, log, ih, log, after_cons, List.append_assoc]

/-- The slot that a name was given last. -/
def latest (name : Name) : List (Name × Int) → Option Int
  | [] => none
  | e :: rest => (latest name rest).or (if name.key = e.1.key then some e.2 else none)

theorem latest_append (name : Name) (first second : List (Name × Int)) :
    latest name (first ++ second) = (latest name second).or (latest name first) := by
  induction first with
  | nil => simp [latest]
  | cons e rest ih => rw [List.cons_append, latest, ih, latest, Option.or_assoc]

def settle (a : Allocator) (given : List (Name × Int)) : Allocator :=
  given.foldl (fun b e => b.force e.1 e.2) a

@[simp] theorem settle_nil (a : Allocator) : a.settle [] = a := rfl

@[simp] theorem settle_cons (a : Allocator) (e : Name × Int) (rest : List (Name × Int)) :
    a.settle (e :: rest) = (a.force e.1 e.2).settle rest := rfl

theorem settle_append (a : Allocator) (first second : List (Name × Int)) :
    a.settle (first ++ second) = (a.settle first).settle second :=
  List.foldl_append

theorem place_eq_force (a : Allocator) (name : String) :
    (a.place name).2 = a.force (.ofText name) (a.place name).1 := by
  cases known : a.lookup (.ofText name) with
  | some slot => rw [place_of_lookup known, force, if_pos known]
  | none => rw [place_of_unbound known, force, if_neg (by simp [known])]

theorem placeValue_eq_force {a b : Allocator} {v : Value} {slot : Int}
    (placed : a.placeValue v = .ok (slot, b)) :
    ∃ name, Name.of? v = some name ∧ b = a.force name slot := by
  cases named : Name.of? v with
  | none => simp [placeValue, lookupValue, nameOf, named, Except.map] at placed
  | some name =>
    refine ⟨name, rfl, ?_⟩
    cases known : a.lookup name with
    | some held =>
      simp only [placeValue, lookupValue, nameOf, named, Except.map, known, Except.ok.injEq,
        Prod.mk.injEq] at placed
      obtain ⟨rfl, rfl⟩ := placed
      rw [force, if_pos known]
    | none =>
      cases v with
      | str x =>
        rw [placeValue_str, Except.ok.injEq] at placed
        rw [Name.of?_str, Option.some.injEq] at named
        have moved := a.place_eq_force x
        rwa [placed, named] at moved
      | _ => simp [placeValue, lookupValue, nameOf, named, Except.map, known, nameText] at placed

theorem resolve_eq_settle {a b : Allocator} {o : Operand} {t : Token} (resolved : a.resolve o = .ok (t, b)) :
    b = a.settle (a.answer? o).toList := by
  cases o with
  | register v =>
    cases placed : a.placeValue v with
    | error f => simp [resolve, placed] at resolved
    | ok r =>
      obtain ⟨slot, c⟩ := r
      have answered : a.resolve (.register v) = .ok (.register slot, c) := by simp only [resolve, placed]
      rw [answered] at resolved
      cases resolved
      obtain ⟨name, named, moved⟩ := placeValue_eq_force placed
      simp only [answer?, Operand.name?, named, answered]
      exact moved
  | other v => cases resolved
  | _ =>
    cases resolved
    rfl

theorem seed_eq_settle (a : Allocator) (names : List Value) :
    (a.seed names).1 = a.settle (a.seedAnswers names) := by
  induction names generalizing a with
  | nil => rfl
  | cons v rest ih =>
    cases placed : a.placeValue v with
    | error f => simp [seed, seedAnswers, resolve, placed]
    | ok r =>
      have answered : a.resolve (.register v) = .ok (.register r.1, r.2) := by simp only [resolve, placed]
      simp only [seed, seedAnswers, placed, answered]
      rw [ih, settle_append, ← resolve_eq_settle answered]

theorem scratch_eq_settle (a : Allocator) : ∃ count,
    a.scratch.2 = { a with scratchCount := count }.settle (a.gives .scratch) := by
  obtain ⟨count, placed⟩ := a.scratch_eq
  refine ⟨count, ?_⟩
  rw [gives, placed]
  exact place_eq_force _ _

/-- An action moves names to the slots it gives, reserves slots or records a group. -/
theorem act_cases (a : Allocator) (action : Action) :
    ((∃ count, a.act action = { a with scratchCount := count }.settle (a.gives action)) ∧
        ∀ slot, ¬ action.Covers slot) ∨
      (∃ start length, action = .reserve start length) ∨ ∃ stem base, action = .group stem base := by
  cases action with
  | resolve o =>
    refine .inl ⟨⟨a.scratchCount, ?_⟩, fun _ covered => covered⟩
    simp only [act, gives]
    split
    · rename_i resolved
      exact resolve_eq_settle resolved
    · rename_i failed
      simp [answer?, failed]
  | seed names => exact .inl ⟨⟨a.scratchCount, a.seed_eq_settle names⟩, fun _ covered => covered⟩
  | force name slot => exact .inl ⟨⟨a.scratchCount, rfl⟩, fun _ covered => covered⟩
  | reserve start length => exact .inr (.inl ⟨start, length, rfl⟩)
  | scratch => exact .inl ⟨a.scratch_eq_settle, fun _ covered => covered⟩
  | group stem base => exact .inr (.inr ⟨stem, base, rfl⟩)

theorem lookup_settle (a : Allocator) (given : List (Name × Int)) (name : Name) :
    (a.settle given).lookup name = (latest name given).or (a.lookup name) := by
  induction given generalizing a with
  | nil => rfl
  | cons e rest ih =>
    rw [settle_cons, ih, latest, Option.or_assoc, lookup_force]
    split <;> rfl

/-- A name has the slot that the action gave it last, or else the one it had. -/
theorem lookup_act (a : Allocator) (action : Action) (name : Name) :
    (a.act action).lookup name = (latest name (a.gives action)).or (a.lookup name) := by
  rcases a.act_cases action with ⟨⟨count, settled⟩, -⟩ | ⟨start, length, rfl⟩ | ⟨stem, base, rfl⟩
  · rw [settled, lookup_settle]
    rfl
  · rw [act, lookup, bindings_reserve]
    rfl
  · rfl

theorem lookup_after (a : Allocator) (actions : List Action) (name : Name) :
    (a.after actions).lookup name = (latest name (a.log actions)).or (a.lookup name) := by
  induction actions generalizing a with
  | nil => rfl
  | cons action rest ih => rw [after_cons, ih, lookup_act, log, latest_append, Option.or_assoc]

/-- Bound slots are occupied by their names, and no name is listed twice. -/
structure Consistent (a : Allocator) : Prop where
  bound : ∀ {name slot}, a.lookup name = some slot → slot ∈ a.occupied
  reserved : ∀ {name slot}, a.lookup name = some slot → slot ∉ a.placeholders
  distinct : (Table.keys a.bindings).Nodup

namespace Consistent

variable {a b : Allocator}

theorem empty (stem : String → String) : Consistent { stem := stem } where
  bound found := by cases found
  reserved found := by cases found
  distinct := List.nodup_nil

theorem withCount (consistent : a.Consistent) (count : Nat) :
    Consistent { a with scratchCount := count } :=
  ⟨consistent.bound, consistent.reserved, consistent.distinct⟩

theorem bind (consistent : a.Consistent) (name : Name) (slot : Int) : (a.bind name slot).Consistent where
  bound {other place} found := by
    rw [lookup_bind] at found
    rw [mem_occupied_bind]
    split at found
    · exact .inl (Option.some.inj found).symm
    · exact .inr (consistent.bound found)
  reserved {other place} found := by
    rw [lookup_bind] at found
    rw [mem_placeholders_bind]
    rintro ⟨held, elsewhere⟩
    split at found
    · exact elsewhere (Option.some.inj found).symm
    · exact consistent.reserved found held
  distinct := by
    have keys : Table.keys (a.bind name slot).bindings = _ := Table.keys_set a.bindings name slot
    rw [keys]
    split
    · exact consistent.distinct
    · rename_i new
      exact List.nodup_append.mpr ⟨consistent.distinct, List.nodup_singleton _,
        fun _ old _ own same => new (List.mem_singleton.mp own ▸ same ▸ old)⟩

theorem force (consistent : a.Consistent) (name : Name) (slot : Int) :
    (a.force name slot).Consistent := by
  unfold Allocator.force
  split
  · exact consistent
  · exact consistent.bind name slot

theorem settle (consistent : a.Consistent) (given : List (Name × Int)) :
    (a.settle given).Consistent := by
  induction given generalizing a with
  | nil => exact consistent
  | cons e rest ih => exact ih (consistent.force e.1 e.2)

theorem reserve (consistent : a.Consistent) (start : Int) (length : Nat) :
    (a.reserve start length).Consistent where
  bound found := by
    rw [lookup, bindings_reserve] at found
    exact (mem_occupied_reserve ..).mpr (.inl (consistent.bound found))
  reserved found membership := by
    rw [lookup, bindings_reserve] at found
    rcases (mem_placeholders_reserve ..).mp membership with held | ⟨-, free⟩
    · exact consistent.reserved found held
    · exact free (consistent.bound found)
  distinct := by
    rw [bindings_reserve]
    exact consistent.distinct

theorem setGroup (consistent : a.Consistent) (stem : Name) (base : Int) :
    (a.setGroup stem base).Consistent :=
  ⟨consistent.bound, consistent.reserved, consistent.distinct⟩

theorem act (consistent : a.Consistent) (action : Action) : (a.act action).Consistent := by
  rcases a.act_cases action with ⟨⟨count, settled⟩, -⟩ | ⟨start, length, rfl⟩ | ⟨stem, base, rfl⟩
  · rw [settled]
    exact (consistent.withCount count).settle _
  · exact consistent.reserve start length
  · exact consistent.setGroup stem base

theorem after (consistent : a.Consistent) (actions : List Action) : (a.after actions).Consistent := by
  induction actions generalizing a with
  | nil => exact consistent
  | cons action rest ih => exact ih (consistent.act action)

theorem mem_occupied_force (consistent : a.Consistent) (name : Name) (slot other : Int) :
    other ∈ (a.force name slot).occupied ↔ other ∈ a.occupied ∨ other = slot := by
  unfold Allocator.force
  split
  · rename_i there
    constructor
    · exact .inl
    · rintro (old | rfl)
      · exact old
      · exact consistent.bound there
  · exact (mem_occupied_bind ..).trans or_comm

theorem mem_placeholders_force (consistent : a.Consistent) (name : Name) (slot other : Int) :
    other ∈ (a.force name slot).placeholders ↔ other ∈ a.placeholders ∧ other ≠ slot := by
  unfold Allocator.force
  split
  · rename_i there
    constructor
    · refine fun membership => ⟨membership, ?_⟩
      rintro rfl
      exact consistent.reserved there membership
    · exact And.left
  · exact mem_placeholders_bind ..

theorem mem_occupied_settle (consistent : a.Consistent) (given : List (Name × Int)) (slot : Int) :
    slot ∈ (a.settle given).occupied ↔ slot ∈ a.occupied ∨ ∃ name, (name, slot) ∈ given := by
  induction given generalizing a with
  | nil => simp
  | cons e rest ih =>
    obtain ⟨own, place⟩ := e
    rw [settle_cons, ih (consistent.force own place), consistent.mem_occupied_force]
    simp [or_assoc, exists_or]

theorem mem_placeholders_settle (consistent : a.Consistent) (given : List (Name × Int)) (slot : Int) :
    slot ∈ (a.settle given).placeholders ↔
      slot ∈ a.placeholders ∧ ∀ name, (name, slot) ∉ given := by
  induction given generalizing a with
  | nil => simp
  | cons e rest ih =>
    obtain ⟨own, place⟩ := e
    rw [settle_cons, ih (consistent.force own place), consistent.mem_placeholders_force]
    simp [and_assoc, forall_and]

/-- The slots that an action adds are those that it reserves or gives to a name. -/
theorem mem_occupied_act (consistent : a.Consistent) (action : Action) (slot : Int) :
    slot ∈ (a.act action).occupied ↔ slot ∈ a.occupied ∨ action.Covers slot ∨
      ∃ name, (name, slot) ∈ a.gives action := by
  rcases a.act_cases action with ⟨⟨count, settled⟩, uncovered⟩ | ⟨start, length, rfl⟩ | ⟨stem, base, rfl⟩
  · rw [settled, (consistent.withCount count).mem_occupied_settle]
    simp [uncovered slot]
  · simp [Allocator.act, gives, mem_occupied_reserve, Action.Covers]
  · simp [Allocator.act, gives, Allocator.setGroup, Action.Covers]

/-- A placeholder is one of before or is reserved now while it is free, and it is not given to a name. -/
theorem mem_placeholders_act (consistent : a.Consistent) (action : Action) (slot : Int) :
    slot ∈ (a.act action).placeholders ↔
      (slot ∈ a.placeholders ∨ action.Covers slot ∧ slot ∉ a.occupied) ∧
        ∀ name, (name, slot) ∉ a.gives action := by
  rcases a.act_cases action with ⟨⟨count, settled⟩, uncovered⟩ | ⟨start, length, rfl⟩ | ⟨stem, base, rfl⟩
  · rw [settled, (consistent.withCount count).mem_placeholders_settle]
    simp [uncovered slot]
  · simp [Allocator.act, gives, mem_placeholders_reserve, Action.Covers]
  · simp [Allocator.act, gives, Allocator.setGroup, Action.Covers]

end Consistent

/-- The slot was given to a name, or a reservation has covered it. -/
def Held (a : Allocator) (actions : List Action) (slot : Int) : Prop :=
  (∃ name, (name, slot) ∈ a.log actions) ∨ ∃ action ∈ actions, action.Covers slot

/-- The slot was reserved while nothing held it, and it has not been given to a name since. -/
def Awaits (a : Allocator) (actions : List Action) (slot : Int) : Prop :=
  ∃ first action rest, actions = first ++ action :: rest ∧ action.Covers slot ∧ ¬ a.Held first slot ∧
    ∀ name, (name, slot) ∉ (a.after (first ++ [action])).log rest

theorem held_append_singleton (a : Allocator) (actions : List Action) (action : Action) (slot : Int) :
    a.Held (actions ++ [action]) slot ↔ a.Held actions slot ∨ action.Covers slot ∨
      ∃ name, (name, slot) ∈ (a.after actions).gives action := by
  simp only [Held, log_append, log, List.append_nil, List.mem_append, List.mem_singleton, exists_or,
    or_and_right, exists_eq_left]
  exact or_or_or_comm.trans (or_congr_right or_comm)

theorem gives_of_covers {a : Allocator} {action : Action} {slot : Int} (covered : action.Covers slot) :
    a.gives action = [] := by
  cases action with
  | reserve start length => rfl
  | _ => exact False.elim covered

theorem awaits_append_singleton (a : Allocator) (actions : List Action) (action : Action)
    (slot : Int) : a.Awaits (actions ++ [action]) slot ↔
      (a.Awaits actions slot ∨ action.Covers slot ∧ ¬ a.Held actions slot) ∧
        ∀ name, (name, slot) ∉ (a.after actions).gives action := by
  constructor
  · rintro ⟨first, reservation, rest, split, covered, free, since⟩
    rcases List.eq_nil_or_concat' rest with rfl | ⟨rest, last, rfl⟩
    · obtain ⟨rfl, same⟩ := List.append_inj' split rfl
      cases same
      exact ⟨.inr ⟨covered, free⟩, by simp [gives_of_covers covered]⟩
    · rw [← List.cons_append, ← List.append_assoc] at split
      obtain ⟨rfl, same⟩ := List.append_inj' split rfl
      cases same
      simp only [log_append, log, List.append_nil, List.mem_append, not_or, forall_and] at since
      refine ⟨.inl ⟨first, reservation, rest, rfl, covered, free, since.1⟩, ?_⟩
      rw [← List.singleton_append, ← List.append_assoc, after_append a (first ++ [reservation])]
      exact since.2
  · rintro ⟨⟨first, reservation, rest, rfl, covered, free, since⟩ | ⟨covered, free⟩, unbound⟩
    · refine ⟨first, reservation, rest ++ [action], by simp, covered, free, ?_⟩
      rw [← List.singleton_append, ← List.append_assoc, after_append a (first ++ [reservation])] at unbound
      simp only [log_append, log, List.append_nil, List.mem_append, not_or, forall_and]
      exact ⟨since, unbound⟩
    · exact ⟨actions, action, [], rfl, covered, free, fun _ membership => nomatch membership⟩

theorem Consistent.mem_occupied_after {a : Allocator} (consistent : a.Consistent)
    (bare : a.occupied = []) (actions : List Action) (slot : Int) :
    slot ∈ (a.after actions).occupied ↔ a.Held actions slot := by
  induction actions using List.reverseRecOn with
  | nil => simp [bare, Held, log]
  | append_singleton actions action ih =>
    rw [held_append_singleton, after_append, after_cons, after_nil,
      (consistent.after actions).mem_occupied_act, ih]

theorem Consistent.mem_placeholders_after {a : Allocator} (consistent : a.Consistent)
    (bare : a.occupied = []) (none : a.placeholders = []) (actions : List Action) (slot : Int) :
    slot ∈ (a.after actions).placeholders ↔ a.Awaits actions slot := by
  induction actions using List.reverseRecOn with
  | nil => simp [none, Awaits]
  | append_singleton actions action ih =>
    rw [awaits_append_singleton, after_append, after_cons, after_nil,
      (consistent.after actions).mem_placeholders_act, ih, consistent.mem_occupied_after bare]

theorem mem_occupied_after_of_mem {a : Allocator} (consistent : a.Consistent) (actions : List Action)
    {slot : Int} (held : slot ∈ a.occupied) : slot ∈ (a.after actions).occupied := by
  induction actions generalizing a with
  | nil => exact held
  | cons action rest ih =>
    exact ih (consistent.act action) ((consistent.mem_occupied_act action slot).mpr (.inl held))

/-- The second allocator lists the names of the first, and then those keys that are new, each once and in
their order. -/
def Lists (a b : Allocator) (keys : List Value.Key) : Prop :=
  Table.keys b.bindings =
    Table.keys a.bindings ++ (keys.removeAll (Table.keys a.bindings)).eraseDups

namespace Lists

variable {a b c : Allocator} {first second : List Value.Key}

theorem of_subset (same : b.bindings = a.bindings) (listed : ∀ k ∈ first, k ∈ Table.keys a.bindings) :
    a.Lists b first := by
  have none : first.removeAll (Table.keys a.bindings) = [] := by
    rw [List.removeAll, List.filter_eq_nil_iff]
    simpa using listed
  rw [Lists, same, none, List.eraseDups_nil, List.append_nil]

theorem bind (a : Allocator) (name : Name) (slot : Int) : a.Lists (a.bind name slot) [name.key] := by
  have keys : Table.keys (a.bind name slot).bindings = _ := Table.keys_set a.bindings name slot
  rw [Lists, keys]
  split
  · rename_i old
    have none : [name.key].removeAll (Table.keys a.bindings) = [] := by
      simpa [List.removeAll] using old
    rw [none, List.eraseDups_nil, List.append_nil]
  · rename_i new
    have one : [name.key].removeAll (Table.keys a.bindings) = [name.key] := by
      simpa [List.removeAll] using new
    rw [one, List.eraseDups_cons]
    rfl

theorem trans (before : a.Lists b first) (later : b.Lists c second) : a.Lists c (first ++ second) := by
  unfold Lists at before later ⊢
  have rest : second.removeAll (Table.keys b.bindings) =
      (second.removeAll (Table.keys a.bindings)).removeAll
        (first.removeAll (Table.keys a.bindings)) := by
    rw [before]
    simp only [List.removeAll, List.filter_filter]
    apply List.filter_congr
    intro k _
    rw [Bool.eq_iff_iff]
    simp only [List.elem_eq_mem, List.mem_append, List.mem_eraseDups, List.mem_filter,
      Bool.not_eq_true', decide_eq_false_iff_not, Bool.and_eq_true]
    tauto
  have both : (first ++ second).removeAll (Table.keys a.bindings) =
      first.removeAll (Table.keys a.bindings) ++ second.removeAll (Table.keys a.bindings) :=
    List.filter_append ..
  rw [later, rest, before, both, List.eraseDups_append, List.append_assoc]

end Lists

theorem force_lists (a : Allocator) (name : Name) (slot : Int) :
    a.Lists (a.force name slot) [name.key] := by
  unfold force
  split
  · rename_i there
    refine .of_subset rfl ?_
    have bound : Table.get? a.bindings name.key = some slot := there
    simp [← Table.has_iff_mem_keys, Table.has, bound]
  · exact .bind a name slot

theorem settle_lists (a : Allocator) (given : List (Name × Int)) :
    a.Lists (a.settle given) (given.map fun e => e.1.key) := by
  induction given generalizing a with
  | nil => exact .of_subset rfl (by simp)
  | cons e rest ih => exact (a.force_lists e.1 e.2).trans (ih (a.force e.1 e.2))

theorem act_lists (a : Allocator) (action : Action) :
    a.Lists (a.act action) ((a.gives action).map fun e => e.1.key) := by
  rcases a.act_cases action with ⟨⟨count, settled⟩, -⟩ | ⟨start, length, rfl⟩ | ⟨stem, base, rfl⟩
  · rw [settled]
    exact settle_lists { a with scratchCount := count } (a.gives action)
  · exact .of_subset (bindings_reserve ..) (by simp [gives])
  · exact .of_subset rfl (by simp [gives])

theorem after_lists (a : Allocator) (actions : List Action) :
    a.Lists (a.after actions) ((a.log actions).map fun e => e.1.key) := by
  induction actions generalizing a with
  | nil => exact .of_subset rfl (by simp [log])
  | cons action rest ih =>
    rw [log, List.map_append]
    exact (a.act_lists action).trans (ih (a.act action))

theorem nextFree_le_card (a : Allocator) : a.nextFree ≤ a.occupied.toFinset.card := by
  have nonneg := a.nextFree_nonneg
  have below : Finset.Ico 0 a.nextFree ⊆ a.occupied.toFinset := by
    intro slot bounds
    rw [Finset.mem_Ico] at bounds
    exact List.mem_toFinset.mpr (mem_occupied_of_lt_nextFree bounds.1 bounds.2)
  have counted := Finset.card_le_card below
  rw [Int.card_Ico] at counted
  omega

theorem Grows.fresh {a b : Allocator} (grown : Grows a b) {x : String} {slot : Int}
    (unbound : a.lookup (.ofText x) = none) (ungrouped : a.group? (a.stem x) = none)
    (found : b.lookup (.ofText x) = some slot) : 0 ≤ slot ∧ slot ∉ a.occupied := by
  -- Until the name is bound, its stem has no group and what was occupied stays so.
  refine (grown.keeps (P := fun c => c.bodySlot? x = none ∧ a.occupied ⊆ c.occupied ∧
    ∀ place, c.lookup (.ofText x) = some place → 0 ≤ place ∧ place ∉ a.occupied) ?_ ?_ ?_).2.2 slot found
  · refine ⟨congrArg (Option.map (· + 3)) ungrouped, List.Subset.refl _, fun place held => ?_⟩
    cases unbound.symm.trans held
  · rintro c y ⟨groupless, held, fresh⟩
    refine ⟨?_, fun _ old => mem_occupied_place y (held old), fun place home => ?_⟩
    · rwa [(c.sameGroups_place y).bodySlot?]
    cases known : c.lookup (.ofText y) with
    | some other =>
      rw [place_of_lookup known] at home
      exact fresh place home
    | none =>
      rw [place_of_unbound known, lookup_bind] at home
      split at home
      · rename_i same
        cases same
        rw [groupless, Option.getD_none, Option.some.injEq] at home
        subst home
        exact ⟨c.nextFree_nonneg, fun old => c.nextFree_notMem (held old)⟩
      · exact fresh place home
  · exact fun _ _ before => before

/-- A name that an action binds anew, without moving it there, gets a slot that was not occupied. -/
theorem act_fresh {a : Allocator} (action : Action) {x : String} {slot : Int}
    (unbound : a.lookup (.ofText x) = none) (ungrouped : a.group? (a.stem x) = none)
    (unforced : ∀ place, action ≠ .force (.ofText x) place)
    (found : (a.act action).lookup (.ofText x) = some slot) : 0 ≤ slot ∧ slot ∉ a.occupied := by
  have old (same : (a.act action).lookup (.ofText x) = a.lookup (.ofText x)) :
      0 ≤ slot ∧ slot ∉ a.occupied := by
    rw [same, unbound] at found
    cases found
  cases action with
  | resolve o =>
    cases resolved : a.resolve o with
    | ok r =>
      simp only [act, resolved] at found
      exact (resolve_grows resolved).fresh unbound ungrouped found
    | error f =>
      apply old
      simp only [act, resolved]
  | seed names => exact (a.seed_grows names).fresh unbound ungrouped found
  | scratch => exact (Grows.scratch .refl).fresh unbound ungrouped found
  | force name place =>
    apply old
    have apart : (Name.ofText x).key ≠ name.key := fun same =>
      unforced place (by rw [Name.eq_ofText_of_key same.symm])
    exact (a.lookup_force name place (.ofText x)).trans (if_neg apart)
  | reserve start length =>
    apply old
    simp only [act, lookup, bindings_reserve]
  | group stem base => exact old rfl

/-- The name is bound to the slot, which is occupied, and the other names are where they were. -/
structure Gains (a b : Allocator) (name : Name) (slot : Int) : Prop where
  bound : b.lookup name = some slot
  held : slot ∈ b.occupied
  others : ∀ other : Name, other.key ≠ name.key → b.lookup other = a.lookup other

theorem Consistent.force_gains {a : Allocator} (consistent : a.Consistent) (name : Name) (slot : Int) :
    a.Gains (a.force name slot) name slot := by
  refine ⟨by rw [lookup_force, if_pos rfl], (consistent.mem_occupied_force ..).mpr (.inr rfl), ?_⟩
  intro other apart
  rw [lookup_force, if_neg apart]

theorem place_fst (a : Allocator) (name : String) : (a.place name).1 = (a.peek name).getD a.nextFree := by
  unfold place
  split
  · rename_i known
    split <;> rw [known, Option.getD_some]
  · rename_i unknown
    rw [unknown, Option.getD_none]

theorem resolve_text (a : Allocator) (x : String) : a.resolve (.register (.str x)) =
    .ok (.register ((a.peek x).getD a.nextFree),
      a.force (.ofText x) ((a.peek x).getD a.nextFree)) := by
  simp only [resolve, placeValue_str, ← place_fst, ← place_eq_force]

theorem seed_eq_after (a : Allocator) (names : List String) : a.seed (names.map .str) =
    (a.after (names.map fun x => .resolve (.register (.str x))), .ok ()) := by
  induction names generalizing a with
  | nil => rfl
  | cons x rest ih =>
    simp only [List.map_cons, seed, placeValue_str, after_cons, act, resolve]
    exact ih _

/-- What an allocator has on its books after some actions. -/
structure Books (stem : String → String) (actions : List Action) (a : Allocator) : Prop where
  lookup : ∀ name, a.lookup name = latest name (log { stem := stem } actions)
  bound : ∀ name slot, a.lookup name = some slot → slot ∈ a.occupied
  grown : ∀ first, first <+: actions →
    ∀ slot ∈ (after { stem := stem } first).occupied, slot ∈ a.occupied
  occupied : ∀ slot, slot ∈ a.occupied ↔ Held { stem := stem } actions slot
  placeholders : ∀ slot, a.isPlaceholder slot = true ↔ Awaits { stem := stem } actions slot
  names : a.names.map Name.key = ((log { stem := stem } actions).map fun e => e.1.key).eraseDups
  distinct : (a.names.map Name.key).Nodup
  /-- The next free slot is the least one that nothing has held. -/
  free : IsLeast { slot | 0 ≤ slot ∧ ¬ Held { stem := stem } actions slot } a.nextFree
  few : a.nextFree ≤ a.occupied.toFinset.card
  /-- A register is resolved to the slot of its name, or to that of its stem's group, or first fit, and
  the name is bound there. -/
  resolved : ∀ x, ∃ slot b, slot = (a.peek x).getD a.nextFree ∧
    a.resolve (.register (.str x)) = .ok (.register slot, b) ∧ a.Gains b (.ofText x) slot
  seeded : ∀ names : List String, a.seed (names.map .str) =
    (a.after (names.map fun x => .resolve (.register (.str x))), .ok ())
  forced : ∀ name slot, a.Gains (a.force name slot) name slot
  /-- A scratch register gets a new name, which is bound as if it were resolved. -/
  scratched : a.lookup (.ofText a.nextScratch) = none ∧
    a.scratch.1 = (a.peek a.nextScratch).getD a.nextFree ∧
    a.Gains a.scratch.2 (.ofText a.nextScratch) a.scratch.1
  /-- No action gives by first fit what was held, not even what its name has left. -/
  fresh : ∀ action x slot, a.lookup (.ofText x) = none → a.group? (a.stem x) = none →
    (∀ place, action ≠ .force (.ofText x) place) → (a.act action).lookup (.ofText x) = some slot →
    0 ≤ slot ∧ ¬ Held { stem := stem } actions slot

theorem Consistent.scratch_gains {a : Allocator} (consistent : a.Consistent) :
    a.scratch.1 = (a.peek a.nextScratch).getD a.nextFree ∧
      a.Gains a.scratch.2 (.ofText a.nextScratch) a.scratch.1 := by
  obtain ⟨count, placed⟩ := a.scratch_eq
  have moved := (consistent.withCount count).force_gains (.ofText a.nextScratch) a.scratch.1
  constructor
  · rw [placed, place_fst]
    rfl
  · have settled : a.scratch.2 =
        Allocator.force { a with scratchCount := count } (.ofText a.nextScratch) a.scratch.1 := by
      rw [placed, place_eq_force]
    rw [settled]
    exact ⟨moved.bound, moved.held, moved.others⟩

/-- Whatever is done with an allocator, its books are right. -/
theorem after_books (stem : String → String) (actions : List Action) :
    Books stem actions (after { stem := stem } actions) := by
  have start := Consistent.empty stem
  have consistent := start.after actions
  have occupied := start.mem_occupied_after rfl actions
  have keys : (after { stem := stem } actions).names.map Name.key =
      Table.keys (after { stem := stem } actions).bindings := List.map_map
  refine ⟨?_, fun _ _ => consistent.bound, ?_, occupied, ?_, ?_, ?_, ⟨⟨nextFree_nonneg _, ?_⟩, ?_⟩,
    nextFree_le_card _, ?_, seed_eq_after _, consistent.force_gains,
    ⟨lookup_nextScratch _, consistent.scratch_gains⟩, ?_⟩
  · intro name
    rw [lookup_after]
    exact Option.or_none
  · rintro first ⟨rest, rfl⟩ slot held
    rw [after_append]
    exact mem_occupied_after_of_mem (start.after first) rest held
  · intro slot
    rw [isPlaceholder, List.contains_iff_mem]
    exact start.mem_placeholders_after rfl rfl actions slot
  · have listed : Lists { stem := stem } _ _ := after_lists { stem := stem } actions
    rw [keys, listed]
    simp [Table.keys, List.removeAll]
  · rw [keys]
    exact consistent.distinct
  · rw [← occupied]
    exact nextFree_notMem _
  · rintro slot ⟨nonneg, never⟩
    rw [← occupied] at never
    exact not_lt.mp fun below => never (mem_occupied_of_lt_nextFree nonneg below)
  · intro x
    exact ⟨_, _, rfl, resolve_text _ x, consistent.force_gains _ _⟩
  · intro action x slot unbound ungrouped unforced found
    rw [← occupied]
    exact act_fresh action unbound ungrouped unforced found

end Allocator

end BlockAsm
