import BlockAsm.Proofs.LoopOccurrences

/-!
Slots that several names hold. Names of one stem share the last slot of their group. Names of different
stems come to share a slot when a loop takes it over, and the loop then reports the name that it leaves
there. This needs that no loop takes for its limit or step a register of its own stem or of a stem that
has a group, since such a register leaves the slot that the other names of its stem read.
-/

namespace BlockAsm

namespace Allocator

/-- Names of different stems share a slot only if one of the stems is among `stems`. -/
structure SharesOnly (a : Allocator) (stems : Set String) : Prop where
  shared : ∀ ⦃x y : String⦄ ⦃slot : Int⦄, a.lookup (.ofText x) = some slot →
    a.lookup (.ofText y) = some slot → a.stem x ≠ a.stem y → a.stem x ∈ stems ∨ a.stem y ∈ stems
  /-- Some name of each group is bound to its last slot, and shares it in place of those to come. -/
  led : ∀ ⦃stem : String⦄ ⦃base : Int⦄, a.group? stem = some base →
    ∃ x, a.stem x = stem ∧ a.lookup (.ofText x) = some (base + 3)

namespace SharesOnly

variable {a b : Allocator} {stems : Set String}

theorem empty (stem : String → String) : SharesOnly { stem := stem } stems where
  shared _ _ _ found := nomatch found
  led _ _ based := nomatch based

theorem of_eq (shares : a.SharesOnly stems) (sameStem : b.stem = a.stem)
    (groups : b.groups = a.groups) (bindings : b.bindings = a.bindings) : b.SharesOnly stems where
  shared := by
    simp only [lookup, sameStem, bindings]
    exact shares.shared
  led := by
    simp only [lookup, group?, sameStem, groups, bindings]
    exact shares.led

/-- A name that is bound on first sight shares the slot of its group's leader, or none. -/
theorem place (shares : a.SharesOnly stems) (wf : a.WellFormed) (name : String) :
    (a.place name).2.SharesOnly stems := by
  cases known : a.lookup (.ofText name) with
  | some slot => rwa [place_of_lookup known]
  | none =>
    have newcomer : ∀ y slot, (a.bodySlot? name).getD a.nextFree = slot →
        a.lookup (.ofText y) = some slot → a.stem name ≠ a.stem y →
        a.stem name ∈ stems ∨ a.stem y ∈ stems := by
      rintro y slot rfl found different
      cases based : a.group? (a.stem name) with
      | none =>
        rw [bodySlot?, based] at found
        exact absurd (wf.bound found) a.nextFree_notMem
      | some base =>
        obtain ⟨leader, sameStem, held⟩ := shares.led based
        rw [bodySlot?, based] at found
        rw [← sameStem] at different ⊢
        exact shares.shared held found different
    rw [place_of_unbound known]
    constructor
    · intro x y slot foundX foundY different
      simp only [lookup_bind, Name.key_ofText, Value.Key.str.injEq] at foundX foundY
      rw [(sameGroups_bind ..).stem] at different ⊢
      split at foundX <;> split at foundY
      · rename_i sameX sameY
        exact absurd (by rw [sameX, sameY]) different
      · rename_i sameX _
        subst sameX
        exact newcomer y slot (Option.some.inj foundX) foundY different
      · rename_i _ sameY
        subst sameY
        exact (newcomer x slot (Option.some.inj foundY) foundX (Ne.symm different)).symm
      · exact shares.shared foundX foundY different
    · intro stem base based
      obtain ⟨leader, sameStem, held⟩ := shares.led based
      refine ⟨leader, sameStem, ?_⟩
      rw [← place_of_unbound known]
      exact lookup_place_of_lookup name held

theorem grows (shares : a.SharesOnly stems) (wf : a.WellFormed) (grown : Grows a b) :
    b.SharesOnly stems := by
  have kept : b.WellFormed ∧ b.SharesOnly stems := by
    apply grown.keeps (P := fun c => c.WellFormed ∧ c.SharesOnly stems) ⟨wf, shares⟩
    · exact fun _ name kept => ⟨kept.1.place name, kept.2.place kept.1 name⟩
    · exact fun _ n kept => ⟨kept.1.withCount n, kept.2.of_eq rfl rfl rfl⟩
  exact kept.2

end SharesOnly

section LayOut

variable {a : Allocator} {stems : Set String} {index : String} {limit step : Operand}

theorem seat?_bounds {x : String} {slot : Int} (seat : a.seat? index limit step x = some slot) :
    a.entrySlot index < slot ∧ slot ≤ a.entrySlot index + 3 := by
  unfold seat? at seat
  split at seat
  · cases seat
    omega
  · split at seat
    · cases seat
      omega
    · split at seat
      · cases seat
        omega
      · cases seat

/-- An entry moves names of different stems to different slots. -/
theorem stem_eq_of_seat? {x y : String} {slot : Int} (seatX : a.seat? index limit step x = some slot)
    (seatY : a.seat? index limit step y = some slot) : a.stem x = a.stem y := by
  unfold seat? at seatX seatY
  grind

theorem outside_of_seat?_eq_none {x : String} (unmoved : a.seat? index limit step x = none) :
    .register (.str x) ∉ [limit, step] := by
  unfold seat? at unmoved
  grind [Operand.register?]

/-- A name that an entry leaves in a slot that it moves others to is reported; no other name comes to
share a slot. -/
theorem SharesOnly.layOut (shares : a.SharesOnly stems) (wf : a.WellFormed) (hl : limit.Resolvable)
    (hs : step.Resolvable)
    (apart : ∀ x, .register (.str x) ∈ [limit, step] →
      a.stem x ≠ a.stem index ∧ a.group? (a.stem x) = none)
    (reported : ∀ x slot, .register (.str x) ∉ [limit, step] → a.stem x ≠ a.stem index →
      a.lookup (.ofText x) = some slot → a.entrySlot index < slot → slot ≤ a.entrySlot index + 3 →
      a.stem x ∈ stems) :
    (a.layOut (.register (.str index)) limit step).1.SharesOnly stems := by
  obtain ⟨b, range, -, -, laid, -, sameStem, groups⟩ := wf.layOut index hl hs
  have after := wf.lookup_layOut index hl hs
  rw [laid] at after ⊢
  have left : ∀ x y slot, a.seat? index limit step x = some slot →
      a.seat? index limit step y = none → a.lookup (.ofText y) = some slot → a.stem y ∈ stems := by
    intro x y slot seat unmoved found
    have outside := outside_of_seat?_eq_none unmoved
    have different : a.stem y ≠ a.stem index := by
      intro same
      rw [a.seat?_of_outside index outside, if_pos ⟨same, .inr (by simp [found])⟩] at unmoved
      cases unmoved
    have bounds := seat?_bounds seat
    exact reported y slot outside different found bounds.1 bounds.2
  constructor
  · intro x y slot foundX foundY different
    rw [sameStem] at different ⊢
    rw [after, Option.or_eq_some_iff] at foundX foundY
    rcases foundX with seatX | ⟨unmovedX, foundX⟩ <;> rcases foundY with seatY | ⟨unmovedY, foundY⟩
    · exact absurd (stem_eq_of_seat? seatX seatY) different
    · exact .inr (left x y slot seatX unmovedY foundY)
    · exact .inl (left y x slot seatY unmovedX foundX)
    · exact shares.shared foundX foundY different
  · intro stem base based
    rw [group?_of_groups_set groups] at based
    split at based
    · rename_i own
      cases based
      have outside : .register (.str index) ∉ [limit, step] :=
        fun ranged => (apart index ranged).1 rfl
      refine ⟨index, by rw [sameStem, own], ?_⟩
      rw [after, a.seat?_of_outside index outside, if_pos ⟨rfl, .inl rfl⟩, Option.some_or]
    · rename_i other
      obtain ⟨leader, ofStem, held⟩ := shares.led based
      have outside : .register (.str leader) ∉ [limit, step] := by
        intro ranged
        have none := (apart leader ranged).2
        rw [ofStem, based] at none
        cases none
      refine ⟨leader, by rw [sameStem, ofStem], ?_⟩
      rw [after, a.seat?_of_outside index outside, if_neg, Option.none_or, held]
      exact fun same => other (ofStem.symm.trans same.1)

end LayOut

end Allocator

namespace Context

open Allocator

def overwritten (c : Context) (entry : Item) : List String :=
  match entry.args with
  | index :: limit :: step :: _ =>
    match (c.allocator.layOut index limit step).2.2 with
    | .ok layout => layout.overwritten
    | .error _ => []
  | _ => []

theorem mem_overwritten {c : Context} (wf : c.allocator.WellFormed) {entry : Item}
    {index : String} {limit step : Operand} {rest : List Operand} (hl : limit.Resolvable)
    (hs : step.Resolvable) (given : entry.args = .register (.str index) :: limit :: step :: rest)
    {x : String} {slot : Int} (outside : .register (.str x) ∉ [limit, step])
    (different : c.allocator.stem x ≠ c.allocator.stem index)
    (found : c.allocator.lookup (.ofText x) = some slot)
    (above : c.allocator.entrySlot index < slot) (below : slot ≤ c.allocator.entrySlot index + 3) :
    x ∈ c.overwritten entry := by
  obtain ⟨b, range, ranged, -, laid, -⟩ := wf.layOut index hl hs
  have unranged : (Name.ofText x).among range = false := by
    rw [← Bool.not_eq_true, among_rangeNames ranged]
    rintro ⟨o, membership, named⟩
    rw [Operand.refers_ofText, Operand.register?_eq_some] at named
    exact outside (named ▸ membership)
  simp only [overwritten, given, laid]
  exact List.mem_map.mpr ⟨_, wf.mem_takeovers found above below unranged different, rfl⟩

theorem lower_sharesOnly {c : Context} {stems : Set String} (wf : c.allocator.WellFormed)
    (shares : c.allocator.SharesOnly stems) (item : Item)
    (apart : ∀ index x, c.Enters item index → .register (.str x) ∈ item.range →
      c.allocator.stem x ≠ c.allocator.stem index ∧ c.allocator.group? (c.allocator.stem x) = none)
    (reported : ∀ index, c.Enters item index → ∀ x ∈ c.overwritten item,
      c.allocator.stem x ∈ stems) :
    (c.lower item).1.allocator.SharesOnly stems := by
  rcases lower_allocator_cases wf item with grown | ⟨same, bindings⟩ | ⟨tagged, succeeded⟩
  · exact shares.grows wf grown
  · exact shares.of_eq same.stem same.groups bindings
  · obtain ⟨index, _, _, _, named, -⟩ := lower_entry wf tagged succeeded
    have entered : c.Enters item index := ⟨tagged, named, succeeded⟩
    obtain ⟨limit, step, rest, given, hl, hs, laid⟩ := entered.layOut wf
    rw [laid]
    apply shares.layOut wf hl hs
    · intro x ranged
      exact apart index x entered (Item.range_eq given ▸ ranged)
    · intro x slot outside different found above below
      apply reported index entered x
      exact mem_overwritten wf hl hs given outside different found above below

/-- A loop that the run enters reports a name of the stem. -/
def Reported (c : Context) (items : List Item) (stem : String) : Prop :=
  ∃ first item index name, first ++ [item] <+: items ∧ (c.lowerEach first).Enters item index ∧
    name ∈ (c.lowerEach first).overwritten item ∧ c.allocator.stem name = stem

/-- Names of different stems share a slot only after a loop has reported a name of one of the stems,
so they share none while no loop reports a name. -/
theorem shared_slots_reported {c : Context} (seeded : c.Seeded) (items : List Item)
    (apart : ∀ first item index x, first ++ [item] <+: items →
      (c.lowerEach first).Enters item index → .register (.str x) ∈ item.range →
      c.allocator.stem x ≠ c.allocator.stem index ∧
        (c.lowerEach first).allocator.group? (c.allocator.stem x) = none) :
    (∀ x y slot, (c.lowerEach items).allocator.lookup (.ofText x) = some slot →
      (c.lowerEach items).allocator.lookup (.ofText y) = some slot →
      c.allocator.stem x ≠ c.allocator.stem y →
      c.Reported items (c.allocator.stem x) ∨ c.Reported items (c.allocator.stem y)) ∧
    ((∀ first item index, first ++ [item] <+: items → (c.lowerEach first).Enters item index →
        (c.lowerEach first).overwritten item = []) →
      ∀ x y slot, (c.lowerEach items).allocator.lookup (.ofText x) = some slot →
        (c.lowerEach items).allocator.lookup (.ofText y) = some slot →
        c.allocator.stem x = c.allocator.stem y) := by
  have wf := seeded.wellFormed
  -- the stems are those that the whole run reports, so that they stay the same from step to step
  have shares : (c.lowerEach items).allocator.SharesOnly { stem | c.Reported items stem } := by
    apply lowerEach_invariant
      (P := fun d => d.allocator.SharesOnly { stem | c.Reported items stem })
    · obtain ⟨stem, grown⟩ := seeded.grows
      exact (SharesOnly.empty stem).grows (WellFormed.empty stem) grown
    · intro first item reached shares
      apply lower_sharesOnly (lowerEach_wellFormed wf first) shares <;> rw [lowerEach_stem wf]
      · intro index x entered ranged
        exact apart first item index x reached entered ranged
      · intro index entered name listed
        exact ⟨first, item, index, name, reached, entered, listed, rfl⟩
  have shared := shares.shared
  rw [lowerEach_stem wf] at shared
  refine ⟨fun x y slot foundX foundY => shared foundX foundY, ?_⟩
  intro quiet x y slot foundX foundY
  have unreported : ∀ stem, ¬ c.Reported items stem := by
    rintro stem ⟨first, item, index, name, reached, entered, listed, -⟩
    rw [quiet first item index reached entered] at listed
    cases listed
  by_contra different
  rcases shared foundX foundY different with reported | reported
  · exact unreported _ reported
  · exact unreported _ reported

/-- A loop whose index is bound just below another name, with a register for its limit. -/
def tightLoop : List Item :=
  [.instruction (.load "i" 0), .instruction (.load "v" 1), .instruction (.load "n" 2),
    .instruction (.enter "i" (.register (.str "n")) (.constant (.int 3)))]

theorem shared_slots_reported_at_tightLoop :
    fresh.Seeded ∧
      (fresh.lowerEach tightLoop).allocator.lookup (.ofText "n") = some 1 ∧
      (fresh.lowerEach tightLoop).allocator.lookup (.ofText "v") = some 1 ∧
      (fresh.Reported tightLoop "n" ∨ fresh.Reported tightLoop "v") := by
  have apart : ∀ first item index x, first ++ [item] <+: tightLoop →
      (fresh.lowerEach first).Enters item index → .register (.str x) ∈ item.range →
      fresh.allocator.stem x ≠ fresh.allocator.stem index ∧
        (fresh.lowerEach first).allocator.group? (fresh.allocator.stem x) = none := by
    rintro first item index x reached ⟨tagged, named, -⟩ ranged
    rcases first with _ | ⟨a, _ | ⟨b, _ | ⟨c, _ | ⟨d, rest⟩⟩⟩⟩ <;>
      simp only [tightLoop, List.nil_append, List.cons_append, List.cons_prefix_cons,
        List.nil_prefix, List.prefix_nil, List.append_eq_nil_iff, reduceCtorEq, and_true,
        and_false] at reached
    · subst reached
      cases tagged
    · obtain ⟨rfl, rfl⟩ := reached
      cases tagged
    · obtain ⟨rfl, rfl, rfl⟩ := reached
      cases tagged
    · obtain ⟨rfl, rfl, rfl, rfl⟩ := reached
      cases named
      have limit : x = "n" := by
        simpa [Item.range, Item.args, Instruction.enter] using ranged
      subst limit
      decide
  have limit : (fresh.lowerEach tightLoop).allocator.lookup (.ofText "n") = some 1 := by decide
  have other : (fresh.lowerEach tightLoop).allocator.lookup (.ofText "v") = some 1 := by decide
  exact ⟨fresh_seeded, limit, other,
    (shared_slots_reported fresh_seeded tightLoop apart).1 "n" "v" 1 limit other (by decide)⟩

end Context

end BlockAsm
