import BlockAsm.Proofs.Layout

/-!
What an entry to a loop does to names. The registers for its limit and step go to their slots in the
group, and every bound name of the index's stem goes to the last one, the index included. No other name
is moved. A name of another stem that held one of the slots after the first is reported, unless it is
the limit or the step.
-/

namespace BlockAsm

theorem Name.eq_ofText_of_key {n : Name} {x : String} (keyed : n.key = .str x) : n = .ofText x := by
  obtain ⟨value, key, same⟩ := n
  subst keyed
  cases Name.eq_str_of_key? same
  rfl

theorem Name.text?_eq_some {n : Name} {x : String} (text : n.text? = some x) : n = .ofText x := by
  obtain ⟨value, key, same⟩ := n
  cases value <;> cases text
  cases same
  rfl

theorem Name.text?_congr {m n : Name} (same : m.key = n.key) : m.text? = n.text? := by
  cases text : m.text? with
  | some x =>
    rw [Name.text?_eq_some text] at same
    rw [Name.eq_ofText_of_key same.symm, Name.text?_ofText]
  | none =>
    cases other : n.text? with
    | none => rfl
    | some x =>
      rw [Name.text?_eq_some other] at same
      rw [Name.eq_ofText_of_key same, Name.text?_ofText] at text
      cases text

theorem Name.among_congr {m n : Name} (same : m.key = n.key) (names : List Name) :
    m.among names = n.among names := by
  rw [Name.among, same, Name.among]

namespace Operand

def register? : Operand → Option String
  | .register (.str x) => some x
  | _ => none

theorem register?_eq_some {o : Operand} {x : String} :
    o.register? = some x ↔ o = .register (.str x) := by
  unfold register?
  split <;> simp_all

def name? : Operand → Option Name
  | .register v => Name.of? v
  | _ => none

def Refers (o : Operand) (name : Name) : Prop := o.name?.map Name.key = some name.key

instance (o : Operand) (name : Name) : Decidable (o.Refers name) :=
  inferInstanceAs (Decidable (_ = _))

theorem refers_ofText {o : Operand} {x : String} : o.Refers (.ofText x) ↔ o.register? = some x := by
  rw [register?_eq_some]
  constructor
  · intro refers
    cases o with
    | register v =>
      obtain ⟨name, named, key⟩ := Option.map_eq_some_iff.mp refers
      have keyed := Name.of?_eq_some named
      rw [key] at keyed
      rw [Name.eq_str_of_key? keyed]
    | _ => cases refers
  · rintro rfl
    rfl

end Operand

namespace Allocator

theorem lookup_force (a : Allocator) (name : Name) (slot : Int) (other : Name) :
    (a.force name slot).lookup other =
      if other.key = name.key then some slot else a.lookup other := by
  unfold force
  split
  · rename_i there
    split
    · rename_i same
      rw [← there]
      unfold lookup
      rw [same]
    · rfl
  · exact lookup_bind a name slot other

theorem lookup_pin (a : Allocator) (o : Operand) (slot : Int) (name : Name) :
    (a.pin o slot).lookup name = if o.Refers name then some slot else a.lookup name := by
  cases o with
  | register v =>
    cases named : Name.of? v with
    | none => simp [pin, Operand.Refers, Operand.name?, named]
    | some n => simp [pin, Operand.Refers, Operand.name?, named, lookup_force, eq_comm]
  | _ => simp [pin, Operand.Refers, Operand.name?]

theorem rangeNames_eq {operands : List Operand} {range : List Name}
    (ranged : rangeNames operands = .ok range) : range = operands.filterMap Operand.name? := by
  induction operands generalizing range with
  | nil =>
    cases ranged
    rfl
  | cons o rest ih =>
    cases o with
    | register v =>
      cases named : Name.of? v with
      | none => simp [rangeNames, nameOf, named] at ranged
      | some n =>
        simp only [rangeNames, nameOf, named, Except.map_eq_ok] at ranged
        obtain ⟨tail, others, rfl⟩ := ranged
        have first : (Operand.register v).name? = some n := named
        rw [ih others, List.filterMap_cons_some first]
    | _ => exact ih ranged

theorem among_rangeNames {operands : List Operand} {range : List Name}
    (ranged : rangeNames operands = .ok range) (name : Name) :
    name.among range = true ↔ ∃ o ∈ operands, o.Refers name := by
  rw [rangeNames_eq ranged]
  simp only [Name.among, List.any_eq_true, List.mem_filterMap, decide_eq_true_eq, Operand.Refers,
    Option.map_eq_some_iff]
  constructor
  · rintro ⟨own, ⟨o, listed, named⟩, same⟩
    exact ⟨o, listed, own, named, same⟩
  · rintro ⟨o, listed, own, named, same⟩
    exact ⟨own, ⟨o, listed, named⟩, same⟩

theorem not_among_range {limit step : Operand} {range : List Name}
    (ranged : rangeNames [limit, step] = .ok range) (name : Name) :
    name.among range = false ↔ ¬ limit.Refers name ∧ ¬ step.Refers name := by
  rw [← Bool.not_eq_true, among_rangeNames ranged]
  simp

def OfStem (a : Allocator) (stem : String) (name : Name) : Prop := name.text?.map a.stem = some stem

instance (a : Allocator) (stem : String) (name : Name) : Decidable (a.OfStem stem name) :=
  inferInstanceAs (Decidable (_ = _))

theorem ofStem_congr {a b : Allocator} (same : b.stem = a.stem) {stem : String} {name : Name} :
    b.OfStem stem name ↔ a.OfStem stem name := by
  rw [OfStem, same, OfStem]

theorem lookup_gather {stem : String} {range names : List Name} {slot : Int} {a b : Allocator}
    (gathered : a.gather stem range slot names = (b, .ok ())) (name : Name) :
    b.lookup name =
      if name.among names = true ∧ name.among range = false ∧ a.OfStem stem name then some slot
      else a.lookup name := by
  induction names generalizing a with
  | nil =>
    cases gathered
    simp [Name.among]
  | cons m rest ih =>
    have found : name.among (m :: rest) = true ↔ m.key = name.key ∨ name.among rest = true := by
      simp [Name.among]
    simp only [found]
    unfold gather at gathered
    split at gathered
    · rename_i ranged
      rw [ih gathered]
      by_cases same : m.key = name.key
      · have inside : name.among range = true := by rwa [← Name.among_congr same]
        simp [inside]
      · simp [same]
    · split at gathered
      · cases gathered
      · rename_i outside _ x text
        have own (same : m.key = name.key) : name.text? = some x := by rw [← Name.text?_congr same, text]
        split at gathered
        · rename_i stems
          rw [ih gathered, lookup_force]
          simp only [ofStem_congr (a.sameGroups_force m slot).stem]
          by_cases same : m.key = name.key
          · have free : name.among range = false := by
              rw [← Name.among_congr same]
              exact eq_false_of_ne_true outside
            simp [same, free, OfStem, own same, stems]
          · simp [same, Ne.symm same]
        · rename_i others
          rw [ih gathered]
          by_cases same : m.key = name.key
          · simp [OfStem, own same, others]
          · simp [same]

theorem among_names_iff (a : Allocator) (name : Name) :
    name.among a.names = true ↔ a.lookup name ≠ none := by
  rw [lookup, ne_eq, Table.get?_eq_none_iff, not_not]
  simp only [Name.among, names, Table.names, Table.keys, List.any_map, List.any_eq_true,
    List.mem_map, Function.comp_apply, decide_eq_true_eq, Name.keyed_key]

theorem lookup_seated (a : Allocator) (index : String) (limit step : Operand) (name : Name) :
    (a.seated index limit step).lookup name =
      if step.Refers name then some (a.entrySlot index + 2)
      else if limit.Refers name then some (a.entrySlot index + 1)
      else if name.key = .str index then some (a.entrySlot index)
      else a.lookup name := by
  have grouped : ∀ (b : Allocator) (stem : Name) (base : Int),
      (b.setGroup stem base).lookup name = b.lookup name := fun _ _ _ => rfl
  have reserved : (a.reserve (a.entrySlot index) groupSize).lookup name = a.lookup name := by
    rw [lookup, bindings_reserve, lookup]
  rw [seated, grouped, lookup_pin, lookup_pin, lookup_force, reserved, Name.key_ofText]

/-- A bound name of the index's stem, or the index itself. -/
def Joins (a : Allocator) (index : String) (name : Name) : Prop :=
  a.OfStem (a.stem index) name ∧ (name.key = .str index ∨ a.lookup name ≠ none)

instance (a : Allocator) (index : String) (name : Name) : Decidable (a.Joins index name) :=
  inferInstanceAs (Decidable (_ ∧ _))

theorem joins_index (a : Allocator) {index : String} {name : Name} (own : name.key = .str index) :
    a.Joins index name := by
  cases Name.eq_ofText_of_key own
  exact ⟨rfl, .inl rfl⟩

theorem joins_ofText {a : Allocator} {index x : String} : a.Joins index (.ofText x) ↔
    a.stem x = a.stem index ∧ (x = index ∨ a.lookup (.ofText x) ≠ none) := by
  simp [Joins, OfStem]

/-- Where each name is once the names of a loop are gathered; the last write decides. -/
theorem lookup_of_gathered {a b : Allocator} {index : String} {limit step : Operand} {range : List Name}
    (ranged : rangeNames [limit, step] = .ok range)
    (gathered : (a.seated index limit step).gather (a.stem index) range (a.entrySlot index + 3)
      (a.seated index limit step).names = (b, .ok ())) (name : Name) :
    b.lookup name =
      if step.Refers name then some (a.entrySlot index + 2)
      else if limit.Refers name then some (a.entrySlot index + 1)
      else if a.Joins index name then some (a.entrySlot index + 3)
      else a.lookup name := by
  have inRange := not_among_range ranged name
  rw [lookup_gather gathered]
  simp only [among_names_iff, inRange, ofStem_congr (a.seated_frame index limit step).1, lookup_seated]
  by_cases isStep : step.Refers name
  · simp [isStep]
  by_cases isLimit : limit.Refers name
  · simp [isStep, isLimit]
  by_cases own : name.key = .str index
  · have joined := a.joins_index own
    simp [isStep, isLimit, own, joined, joined.1]
  · simp [isStep, isLimit, own, Joins, and_comm]

/-- The slot that an entry to a loop moves a name to. -/
def seat? (a : Allocator) (index : String) (limit step : Operand) (x : String) : Option Int :=
  if step.register? = some x then some (a.entrySlot index + 2)
  else if limit.register? = some x then some (a.entrySlot index + 1)
  else if a.stem x = a.stem index ∧ (x = index ∨ a.lookup (.ofText x) ≠ none) then
    some (a.entrySlot index + 3)
  else none

theorem seat?_of_outside (a : Allocator) (index : String) {limit step : Operand} {x : String}
    (outside : .register (.str x) ∉ [limit, step]) : a.seat? index limit step x =
      if a.stem x = a.stem index ∧ (x = index ∨ a.lookup (.ofText x) ≠ none) then
        some (a.entrySlot index + 3) else none := by
  simp only [List.mem_cons, List.not_mem_nil, or_false, not_or] at outside
  have notLimit : limit.register? ≠ some x := by
    rw [ne_eq, Operand.register?_eq_some]
    exact Ne.symm outside.1
  have notStep : step.register? ≠ some x := by
    rw [ne_eq, Operand.register?_eq_some]
    exact Ne.symm outside.2
  rw [seat?, if_neg notStep, if_neg notLimit]

/-- Where names are after a loop is laid out. -/
theorem WellFormed.lookup_layOut {a : Allocator} (wf : a.WellFormed) (index : String)
    {limit step : Operand} (hl : limit.Resolvable) (hs : step.Resolvable) (x : String) :
    (a.layOut (.register (.str index)) limit step).1.lookup (.ofText x) =
      (a.seat? index limit step x).or (a.lookup (.ofText x)) := by
  obtain ⟨b, range, ranged, gathered, laid, -⟩ := wf.layOut index hl hs
  rw [laid, lookup_of_gathered ranged gathered, seat?]
  simp only [Operand.refers_ofText, joins_ofText]
  split
  · rfl
  · split
    · rfl
    · split <;> rfl

theorem layOut_fst_cases (a : Allocator) (index limit step : Operand) :
    (a.layOut index limit step).1 = a ∨ ∃ name range,
      (a.layOut index limit step).1 = a.reserve (a.entrySlot name) groupSize ∨
      (a.layOut index limit step).1 = ((a.seated name limit step).gather (a.stem name) range
        (a.entrySlot name + 3) (a.seated name limit step).names).1 := by
  cases index with
  | register v =>
    cases v with
    | str name =>
      simp only [layOut, layOutNamed]
      split
      · exact .inl rfl
      · rename_i range _
        split
        · exact .inl rfl
        · right
          refine ⟨name, range, ?_⟩
          have same : ∀ r, a.occupyGroup name limit step (a.entrySlot name) range = r →
              r.1 = a.reserve (a.entrySlot name) groupSize ∨
              r.1 = ((a.seated name limit step).gather (a.stem name) range (a.entrySlot name + 3)
                (a.seated name limit step).names).1 := by
            rintro _ rfl
            simp only [occupyGroup]
            split
            · exact .inl rfl
            · right
              split <;> rename_i gathered <;> exact (congrArg Prod.fst gathered).symm
          split <;> rename_i laid <;> exact same _ laid
    | _ => exact .inl rfl
  | _ => exact .inl rfl

/-- A name of another stem that holds one of the slots after the first is reported. -/
theorem WellFormed.mem_takeovers {a : Allocator} (wf : a.WellFormed) {stem x : String} {base slot : Int}
    {range : List Name} (bound : a.lookup (.ofText x) = some slot) (above : base < slot)
    (below : slot ≤ base + 3) (outside : (Name.ofText x).among range = false)
    (other : a.stem x ≠ stem) : ⟨stem, slot, x⟩ ∈ a.takeovers stem base range := by
  obtain ⟨n, membership, key⟩ := Table.exists_mem_of_get? bound
  obtain ⟨s, rfl⟩ := wf.text n (List.mem_map_of_mem membership)
  have same : s = x := by simpa using key
  subst same
  have texts : ∀ b ∈ a.crossed base range, b.1.text?.isSome = true := by
    intro b crossed
    obtain ⟨y, named⟩ := wf.text b.1 (List.mem_map_of_mem (List.mem_filter.mp crossed).1)
    simp [named]
  rw [takeovers, List.takeWhile_eq_self_iff.mpr texts, List.mem_filterMap]
  refine ⟨(.ofText s, slot), ?_, by simp [takeover?, other]⟩
  rw [crossed, List.mem_filter]
  exact ⟨membership, by simp [above, below, outside]⟩

end Allocator

def Item.range (item : Item) : List Operand := (item.args.drop 1).take 2

theorem Item.range_eq {item : Item} {index limit step : Operand} {rest : List Operand}
    (given : item.args = index :: limit :: step :: rest) : item.range = [limit, step] := by
  simp [range, given]

namespace Context

open Allocator

theorem allocator_enterLoop (c : Context) (index limit step : Operand) (target : Value) :
    (c.enterLoop index limit step target).1.allocator = (c.allocator.layOut index limit step).1 := by
  simp only [enterLoop]
  split <;> rfl

/-- An entry that is lowered without a failure has operands that can be resolved, and lays its loop
out. -/
theorem lower_layOut {c : Context} (wf : c.allocator.WellFormed) {item : Item}
    (tagged : item.opcode? = some .forprep) (succeeded : (c.lower item).2 = .ok ()) :
    ∃ index limit step rest, item.args = .register (.str index) :: limit :: step :: rest ∧
      limit.Resolvable ∧ step.Resolvable ∧
      (c.lower item).1.allocator = (c.allocator.layOut (.register (.str index)) limit step).1 := by
  obtain ⟨index, limit, step, target, rest, given, lowered⟩ := lower_of_forprep tagged succeeded
  rw [lowered] at succeeded ⊢
  obtain ⟨⟨s, rfl⟩, hl, hs⟩ := resolvable_of_enterLoop wf succeeded
  exact ⟨s, limit, step, rest, given, hl, hs, c.allocator_enterLoop ..⟩

/-- Unless lowering enters a loop, it places names or leaves names and groups as they were. -/
theorem lower_allocator_cases {c : Context} (wf : c.allocator.WellFormed) (item : Item) :
    Grows c.allocator (c.lower item).1.allocator ∨
      (SameGroups c.allocator (c.lower item).1.allocator ∧
        (c.lower item).1.allocator.bindings = c.allocator.bindings) ∨
      (item.opcode? = some .forprep ∧ (c.lower item).2 = .ok ()) := by
  rcases c.lower_cases item with
    grown | ⟨index, limit, step, target, rest, tagged, given, entered⟩
  · exact .inl grown
  · right
    by_cases ready : (∃ s, index = .register (.str s)) ∧ limit.Resolvable ∧ step.Resolvable
    · obtain ⟨⟨s, rfl⟩, hl, hs⟩ := ready
      obtain ⟨d, laid, -⟩ := enterLoop_of_resolvable wf s hl hs target
      exact .inr ⟨tagged, by rw [entered, laid]⟩
    · obtain ⟨d, f, laid, -, kept⟩ := enterLoop_of_not_resolvable wf ready target
      rw [entered, laid]
      exact .inl kept

end Context

end BlockAsm
