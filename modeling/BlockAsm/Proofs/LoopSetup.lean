import BlockAsm.Proofs.Bookkeeping

/-!
What laying out a loop leaves in an allocator, however the allocator has been used before. The group is
recorded under the stem of the index, the registers for limit and step are in the slots after the first,
and every other bound name of the stem is in the last one, the index included. The names outside the loop
stay where they are, and no copy of a control value goes to the slot of one of them, unless the name is
reported as overwritten.

Operands may coincide or share the stem of the index, and limit and step may be registers whose names are
no texts, as long as they are bound.
-/

namespace BlockAsm

namespace Allocator

/-- The allocators that any use leads to, by actions and by loops that are laid out, as far as they
are. -/
inductive Attained : Allocator → Prop
  | empty (stem : String → String) : Attained { stem := stem }
  | act {a : Allocator} (action : Action) : Attained a → Attained (a.act action)
  | layOut {a : Allocator} (index limit step : Operand) :
      Attained a → Attained (a.layOut index limit step).1

theorem Attained.grows {a b : Allocator} (attained : a.Attained) (grown : Grows a b) : b.Attained := by
  induction grown with
  | refl => exact attained
  | @place b name _ ih =>
    have placed := ih.act (.resolve (.register (.str name)))
    rwa [Allocator.act, resolve, placeValue_str] at placed
  | scratch _ ih => exact ih.act .scratch

theorem Reachable.attained {a : Allocator} (reached : Reachable a) : a.Attained := by
  induction reached with
  | fresh seeded =>
    obtain ⟨stem, grown⟩ := seeded.grows
    exact (Attained.empty stem).grows grown
  | @lower c item _ ih =>
    rcases c.lower_cases item with grown | ⟨index, limit, step, target, rest, -, -, entered⟩
    · exact ih.grows grown
    · rw [entered, Context.allocator_enterLoop]
      exact ih.layOut index limit step

namespace Consistent

variable {a : Allocator}

theorem pin (consistent : a.Consistent) (o : Operand) (slot : Int) : (a.pin o slot).Consistent := by
  unfold Allocator.pin
  split
  · split
    · exact consistent.force _ _
    · exact consistent
  · exact consistent

theorem seated (consistent : a.Consistent) (index : String) (limit step : Operand) :
    (a.seated index limit step).Consistent :=
  ((((consistent.reserve _ _).force _ _).pin _ _).pin _ _).setGroup _ _

theorem gather (consistent : a.Consistent) (stem : String) (range : List Name) (slot : Int)
    (names : List Name) : (a.gather stem range slot names).1.Consistent := by
  induction names generalizing a with
  | nil => exact consistent
  | cons name rest ih =>
    unfold Allocator.gather
    split
    · exact ih consistent
    · split
      · exact consistent
      · split
        · exact ih (consistent.force name slot)
        · exact ih consistent

theorem layOut (consistent : a.Consistent) (index limit step : Operand) :
    (a.layOut index limit step).1.Consistent := by
  rcases a.layOut_fst_cases index limit step with same | ⟨name, range, reserved | gathered⟩
  · rwa [same]
  · rw [reserved]
    exact consistent.reserve _ _
  · rw [gathered]
    exact (consistent.seated name limit step).gather _ _ _ _

end Consistent

theorem Attained.consistent {a : Allocator} (attained : a.Attained) : a.Consistent := by
  induction attained with
  | empty stem => exact .empty stem
  | act action _ ih => exact ih.act action
  | layOut index limit step _ ih => exact ih.layOut index limit step

theorem occupyGroup_eq_ok {a : Allocator} {index : String} {limit step : Operand} {range : List Name}
    {copies : List Copy}
    (occupied : (a.occupyGroup index limit step (a.entrySlot index) range).2 = .ok copies) :
    (a.reserve (a.entrySlot index) groupSize).copies (a.controls index limit step) = .ok copies ∧
      (a.seated index limit step).gather (a.stem index) range (a.entrySlot index + 3)
        (a.seated index limit step).names =
          ((a.occupyGroup index limit step (a.entrySlot index) range).1, .ok ()) := by
  unfold occupyGroup at occupied ⊢
  simp only at occupied ⊢
  split at occupied
  · cases occupied
  · rename_i copied
    split at occupied
    · rename_i gathered
      cases occupied
      exact ⟨copied, gathered⟩
    · cases occupied

theorem layOut_eq_ok {a : Allocator} {index limit step : Operand} {layout : LoopLayout}
    (laid : (a.layOut index limit step).2.2 = .ok layout) :
    ∃ i range copies, index = .register (.str i) ∧ rangeNames [limit, step] = .ok range ∧
      a.stemless? (a.entrySlot i) range = none ∧
      (a.reserve (a.entrySlot i) groupSize).copies (a.controls i limit step) = .ok copies ∧
      (a.seated i limit step).gather (a.stem i) range (a.entrySlot i + 3)
        (a.seated i limit step).names = ((a.layOut index limit step).1, .ok ()) ∧
      layout = ⟨a.stem i, a.entrySlot i, copies,
        (a.takeovers (a.stem i) (a.entrySlot i) range).map Takeover.name⟩ := by
  cases index with
  | register v =>
    cases v with
    | str i =>
      simp only [layOut, layOutNamed] at laid ⊢
      split at laid
      · cases laid
      · rename_i range ranged
        split at laid
        · cases laid
        · rename_i textual
          split at laid
          · cases laid
          · rename_i copies occupied
            cases laid
            have parts := occupyGroup_eq_ok (congrArg Prod.snd occupied)
            refine ⟨i, range, copies, rfl, ranged, textual, parts.1, ?_, rfl⟩
            rw [parts.2]
            exact congrArg (·, _) (congrArg Prod.fst occupied)
    | _ => cases laid
  | _ => cases laid

theorem groups_gather (a : Allocator) (stem : String) (range : List Name) (slot : Int)
    (names : List Name) : (a.gather stem range slot names).1.groups = a.groups := by
  induction names generalizing a with
  | nil => rfl
  | cons name rest ih =>
    unfold gather
    split
    · exact ih a
    · split
      · rfl
      · split
        · exact (ih _).trans (a.sameGroups_force name slot).groups
        · exact ih a

theorem pin_lists (a : Allocator) (o : Operand) (slot : Int) :
    a.Lists (a.pin o slot) (o.name?.toList.map Name.key) := by
  cases o with
  | register v =>
    cases named : Name.of? v with
    | none => simpa [pin, named, Operand.name?] using Lists.of_subset rfl (by simp)
    | some n => simpa [pin, named, Operand.name?] using a.force_lists n slot
  | _ => exact .of_subset rfl (by simp [Operand.name?])

/-- The names of the operands come last, as far as they are new. -/
theorem seated_lists (a : Allocator) (index : String) (limit step : Operand) :
    a.Lists (a.seated index limit step)
      (([.register (.str index), limit, step].filterMap Operand.name?).map Name.key) := by
  have reserved : a.Lists (a.reserve (a.entrySlot index) groupSize) [] :=
    .of_subset (bindings_reserve ..) (by simp)
  have listed := (((reserved.trans (force_lists _ (.ofText index) (a.entrySlot index))).trans
    (pin_lists _ limit (a.entrySlot index + 1))).trans (pin_lists _ step (a.entrySlot index + 2)))
  have keys : ([.register (.str index), limit, step].filterMap Operand.name?).map Name.key =
      [] ++ [(Name.ofText index).key] ++ limit.name?.toList.map Name.key ++
        step.name?.toList.map Name.key := by
    simp [List.filterMap_eq_flatMap_toList, Operand.name?, Name.of?_str]
  rw [keys]
  exact listed

theorem keys_gather {a : Allocator} (stem : String) (range : List Name) (slot : Int) {names : List Name}
    (bound : ∀ n ∈ names, n.key ∈ Table.keys a.bindings) :
    Table.keys (a.gather stem range slot names).1.bindings = Table.keys a.bindings := by
  induction names generalizing a with
  | nil => rfl
  | cons n rest ih =>
    have others : ∀ m ∈ rest, m.key ∈ Table.keys a.bindings := fun m hm => bound m (by simp [hm])
    unfold gather
    split
    · exact ih others
    · split
      · rfl
      · split
        · have kept : Table.keys (a.force n slot).bindings = Table.keys a.bindings := by
            have listed : Lists a _ _ := a.force_lists n slot
            have old : [n.key].removeAll (Table.keys a.bindings) = [] := by
              simpa [List.removeAll] using bound n (by simp)
            rw [listed, old, List.eraseDups_nil, List.append_nil]
          rw [ih (by rwa [kept]), kept]
        · exact ih others

theorem key_mem_keys (a : Allocator) (name : Name) (listed : name ∈ a.names) :
    name.key ∈ Table.keys a.bindings := by
  have keys : Table.keys a.bindings = a.names.map Name.key := List.map_map.symm
  rw [keys]
  exact List.mem_map_of_mem listed

theorem mem_copyTo {source : Operand} {target : Int} {place : Option Token} {copy : Copy}
    (listed : copy ∈ copyTo source target place) :
    copy.target = target ∧ place = some copy.token ∧ copy.token ≠ .register target := by
  cases place with
  | none => cases listed
  | some token =>
    cases token with
    | register slot =>
      simp only [copyTo] at listed
      split at listed
      · cases listed
      · rename_i elsewhere
        rw [List.mem_singleton.mp listed]
        exact ⟨rfl, rfl, by simpa using elsewhere⟩
    | _ =>
      rw [List.mem_singleton.mp listed]
      exact ⟨rfl, rfl, by simp⟩

/-- Every copy brings a control value to its own slot, from another place. -/
theorem mem_copies {a : Allocator} {controls : List (Operand × Int)} {copied : List Copy}
    (h : a.copies controls = .ok copied) {copy : Copy} (listed : copy ∈ copied) :
    ∃ o, (o, copy.target) ∈ controls ∧ a.livesAt o = .ok (some copy.token) ∧
      copy.token ≠ .register copy.target := by
  induction controls generalizing copied with
  | nil =>
    cases h
    cases listed
  | cons p rest ih =>
    obtain ⟨o, target⟩ := p
    simp only [copies] at h
    split at h
    · cases h
    · rename_i place lives
      obtain ⟨more, others, rfl⟩ := Except.map_eq_ok.mp h
      rcases List.mem_append.mp listed with own | later
      · obtain ⟨rfl, rfl, elsewhere⟩ := mem_copyTo own
        exact ⟨o, by simp, lives, elsewhere⟩
      · obtain ⟨p, control, found⟩ := ih others later
        exact ⟨p, List.mem_cons_of_mem _ control, found⟩

/-- A copy goes to a slot after the first or to a free one. -/
theorem target_of_mem_copies {a : Allocator} {index : String} {limit step : Operand}
    {copied : List Copy}
    (h : (a.reserve (a.entrySlot index) groupSize).copies (a.controls index limit step) = .ok copied)
    {copy : Copy} (listed : copy ∈ copied) :
    a.entrySlot index < copy.target ∧ copy.target ≤ a.entrySlot index + 2 ∨
      copy.target = a.nextFree := by
  obtain ⟨o, control, lives, elsewhere⟩ := mem_copies h listed
  simp only [controls, List.mem_cons, Prod.mk.injEq, List.not_mem_nil, or_false] at control
  rcases control with ⟨rfl, first⟩ | ⟨-, second⟩ | ⟨-, third⟩
  · right
    cases known : a.lookup (.ofText index) with
    | none => rw [first, entrySlot, known, Option.getD_none]
    | some slot =>
      have bound : (a.reserve (a.entrySlot index) groupSize).lookup (.ofText index) = some slot := by
        rw [lookup, bindings_reserve]
        exact known
      have place : slot = copy.target := by rw [first, entrySlot, known, Option.getD_some]
      simp [livesAt, peekValue, lookupValue, nameOf, Name.of?_str, Except.map, bound] at lives
      exact absurd (by rw [← lives, place]) elsewhere
  · omega
  · omega

/-- If every crossed name is a text, those of other stems are taken over, in order. -/
theorem names_takeovers {a : Allocator} {base : Int} {range : List Name}
    (textual : a.stemless? base range = none) (stem : String) :
    ((a.takeovers stem base range).map Takeover.name).map Name.ofText =
      ((a.crossed base range).filter fun b => !decide (a.OfStem stem b.1)).map Prod.fst := by
  rw [stemless?, Option.map_eq_none_iff, List.find?_eq_none] at textual
  have texts : ∀ b ∈ a.crossed base range, b.1.text?.isSome = true := fun b crossed => by
    simpa [Option.isSome_iff_ne_none] using textual b crossed
  rw [takeovers, List.takeWhile_eq_self_iff.mpr texts]
  generalize a.crossed base range = crossed at texts
  induction crossed with
  | nil => rfl
  | cons b rest ih =>
    have others := ih fun c later => texts c (List.mem_cons_of_mem b later)
    obtain ⟨x, text⟩ := Option.isSome_iff_exists.mp (texts b List.mem_cons_self)
    by_cases same : a.stem x = stem
    · simpa [takeover?, text, OfStem, same] using others
    · simpa [takeover?, text, OfStem, same, Name.text?_eq_some text] using others

theorem mem_crossed_of_lookup {a : Allocator} {base slot : Int} {range : List Name} {name : Name}
    (textual : a.stemless? base range = none) (bound : a.lookup name = some slot) (above : base < slot)
    (below : slot ≤ base + 3) (outside : name.among range = false) :
    (name, slot) ∈ a.crossed base range := by
  obtain ⟨m, listed, same⟩ := Table.exists_mem_of_get? bound
  have crossed : (m, slot) ∈ a.crossed base range := by
    refine List.mem_filter.mpr ⟨listed, ?_⟩
    have outside' : m.among range = false := (Name.among_congr same range).trans outside
    simp [above, below, outside']
  rw [stemless?, Option.map_eq_none_iff, List.find?_eq_none] at textual
  have text : m.text? ≠ none := by simpa using textual _ crossed
  obtain ⟨x, text⟩ := Option.ne_none_iff_exists'.mp text
  cases Name.text?_eq_some text
  rwa [Name.eq_ofText_of_key same.symm]

def Outside (a : Allocator) (index : String) (limit step : Operand) (name : Name) : Prop :=
  ¬ limit.Refers name ∧ ¬ step.Refers name ∧ ¬ a.Joins index name

/-- The names that are taken over are those outside the loop that hold a slot after the first. -/
theorem Consistent.mem_takeovers_iff {a : Allocator} (consistent : a.Consistent) (index : String)
    {limit step : Operand} {base : Int} {range : List Name}
    (ranged : rangeNames [limit, step] = .ok range) (textual : a.stemless? base range = none)
    (name : Name) :
    name ∈ ((a.takeovers (a.stem index) base range).map Takeover.name).map Name.ofText ↔
      a.Outside index limit step name ∧ ∃ slot, a.lookup name = some slot ∧ base < slot ∧
        slot ≤ base + 3 := by
  have inRange := not_among_range ranged name
  rw [names_takeovers textual, List.mem_map]
  constructor
  · rintro ⟨⟨n, slot⟩, listed, rfl⟩
    simp only [crossed, List.mem_filter, Bool.and_eq_true, decide_eq_true_eq, Bool.not_eq_true',
      decide_eq_false_iff_not] at listed
    obtain ⟨⟨bound, bounds, outside⟩, other⟩ := listed
    obtain ⟨notLimit, notStep⟩ := inRange.mp outside
    exact ⟨⟨notLimit, notStep, fun joined => other joined.1⟩, slot,
      Table.get?_of_mem consistent.distinct bound, bounds⟩
  · rintro ⟨⟨notLimit, notStep, apart⟩, slot, bound, above, below⟩
    refine ⟨(name, slot), List.mem_filter.mpr ⟨?_, ?_⟩, rfl⟩
    · exact mem_crossed_of_lookup textual bound above below (inRange.mpr ⟨notLimit, notStep⟩)
    · have other : ¬ a.OfStem (a.stem index) name := fun same => apart ⟨same, .inr (by simp [bound])⟩
      simp [other]

/-- What is in place when the loop of an index is laid out. -/
structure InPlace (a : Allocator) (index : String) (limit step : Operand) (layout : LoopLayout)
    (b : Allocator) : Prop where
  stem : layout.stem = a.stem index
  base : layout.base = a.entrySlot index
  groups : b.groups = Table.set a.groups (.ofText layout.stem) layout.base
  stepped : ∀ name, step.Refers name → b.lookup name = some (layout.base + 2)
  limited : ∀ name, limit.Refers name → ¬ step.Refers name → b.lookup name = some (layout.base + 1)
  joined : ∀ name, ¬ limit.Refers name → ¬ step.Refers name → a.Joins index name →
    b.lookup name = some (layout.base + 3)
  kept : ∀ name, a.Outside index limit step name → b.lookup name = a.lookup name
  /-- The operands that are new are listed last. -/
  order : a.Lists b (([.register (.str index), limit, step].filterMap Operand.name?).map Name.key)
  reported : (layout.overwritten.map Name.ofText).Sublist a.names
  overwritten : ∀ name, name ∈ layout.overwritten.map Name.ofText ↔
    a.Outside index limit step name ∧
      ∃ slot, a.lookup name = some slot ∧ layout.base < slot ∧ slot ≤ layout.base + 3
  copies : ∀ copy ∈ layout.copies, ∀ name, a.Outside index limit step name →
    b.lookup name = some copy.target → name ∈ layout.overwritten.map Name.ofText

/-- A loop that is laid out is in place, however the allocator has been used. -/
theorem layOut_inPlace {a : Allocator} (attained : a.Attained) {index limit step : Operand}
    {layout : LoopLayout} (laid : (a.layOut index limit step).2.2 = .ok layout) :
    ∃ i, index = .register (.str i) ∧ a.InPlace i limit step layout (a.layOut index limit step).1 := by
  have consistent := attained.consistent
  obtain ⟨i, range, copies, rfl, ranged, textual, copied, gathered, rfl⟩ := layOut_eq_ok laid
  generalize (a.layOut (.register (.str i)) limit step).1 = b at gathered
  have moved := lookup_of_gathered ranged gathered
  have others (name : Name) : a.Outside i limit step name → b.lookup name = a.lookup name := by
    rintro ⟨notLimit, notStep, apart⟩
    rw [moved, if_neg notStep, if_neg notLimit, if_neg apart]
  have taken := consistent.mem_takeovers_iff i ranged textual
  refine ⟨i, rfl, rfl, rfl, ?_, ?_, ?_, ?_, others, ?_, ?_, taken, ?_⟩
  · have groups := groups_gather (a.seated i limit step) (a.stem i) range (a.entrySlot i + 3)
      (a.seated i limit step).names
    rwa [gathered, (a.seated_frame i limit step).2] at groups
  · intro name isStep
    rw [moved, if_pos isStep]
  · intro name isLimit notStep
    rw [moved, if_neg notStep, if_pos isLimit]
  · intro name notLimit notStep joined
    rw [moved, if_neg notStep, if_neg notLimit, if_pos joined]
  · have listed : a.Lists _ _ := a.seated_lists i limit step
    have keys := keys_gather (a.stem i) range (a.entrySlot i + 3) (a.seated i limit step).key_mem_keys
    rw [gathered] at keys
    rw [Lists, keys, listed]
  · rw [names_takeovers textual]
    exact (List.filter_sublist.trans List.filter_sublist).map Prod.fst
  · intro copy listed name outside found
    rw [others name outside] at found
    rw [taken]
    refine ⟨outside, copy.target, found, ?_⟩
    rcases target_of_mem_copies copied listed with bounds | free
    · omega
    · rw [free] at found
      exact absurd (consistent.bound found) a.nextFree_notMem

/-- A context in which the limit and the step of a loop are declared after its index, the step first, and
then another name. -/
def reversedControls : Context :=
  { allocator :=
      (seed { stem := Pattern.occurrence.stem } [.str "i", .str "k", .str "n", .str "x"]).1 }

theorem create_reversedControls :
    Context.create (.str defaultSuffix) (.list [.str "i", .str "k", .str "n", .str "x"]) =
      .ok reversedControls := by
  simp only [Context.create, Context.suffixPattern, Pattern.parse_defaultSuffix]
  rfl

theorem layOut_inPlace_of_reversedControls :
    reversedControls.allocator.Attained ∧ ∃ layout,
      (reversedControls.allocator.layOut (.register (.str "i")) (.register (.str "n"))
        (.register (.str "k"))).2.2 = .ok layout ∧
      layout.overwritten = ["x"] ∧ layout.copies.map Copy.target = [1, 2] ∧
      ∃ i, Operand.register (.str "i") = .register (.str i) ∧
        reversedControls.allocator.InPlace i (.register (.str "n")) (.register (.str "k")) layout
          (reversedControls.allocator.layOut (.register (.str "i")) (.register (.str "n"))
            (.register (.str "k"))).1 := by
  have attained := (Reachable.fresh (Context.create_seeded create_reversedControls)).attained
  have laid : (reversedControls.allocator.layOut (.register (.str "i")) (.register (.str "n"))
      (.register (.str "k"))).2.2 = .ok ⟨"i", 0, [⟨1, .register (.str "n"), .register 2⟩,
        ⟨2, .register (.str "k"), .register 1⟩], ["x"]⟩ := rfl
  exact ⟨attained, _, laid, rfl, rfl, layOut_inPlace attained laid⟩

end Allocator

end BlockAsm
