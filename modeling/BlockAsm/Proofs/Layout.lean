import BlockAsm.Proofs.Lowering

/-!
Allocators that lowering can lead to, and what they have in common: the occupied slots are the first
ones without a gap, every bound slot and every slot of a group is among them, no bound slot counts as a
mere reservation, and every bound name is a text. In such an allocator a loop is laid out exactly if
its operands can be resolved; the copies it asks for then bring each control value from where it lives.
-/

namespace BlockAsm.Pattern

/-- The default occurrence suffix, read. -/
def occurrence : Pattern :=
  .seq (.seq (.one ⟨false, [.range '_' '_', .range '.' '.', .range '#' '#']⟩)
    (.repeated (.one ⟨false, [.digit]⟩) 1 none)) .finish

theorem parse_defaultSuffix : parse defaultSuffix = .ok occurrence := by cbv

end BlockAsm.Pattern

namespace BlockAsm.Allocator

structure WellFormed (a : Allocator) : Prop where
  dense : ∃ used : Nat, ∀ slot, slot ∈ a.occupied ↔ 0 ≤ slot ∧ slot < used
  bound : ∀ {name slot}, a.lookup name = some slot → slot ∈ a.occupied
  grouped : ∀ {stem base slot}, a.group? stem = some base → base ≤ slot → slot ≤ base + 3 →
    slot ∈ a.occupied
  reserved : ∀ {name slot}, a.lookup name = some slot → slot ∉ a.placeholders
  text : ∀ name ∈ a.names, ∃ s, name = .ofText s

namespace WellFormed

variable {a : Allocator}

theorem mem_occupied_iff (wf : a.WellFormed) (slot : Int) :
    slot ∈ a.occupied ↔ 0 ≤ slot ∧ slot < a.nextFree := by
  constructor
  · intro held
    obtain ⟨used, dense⟩ := wf.dense
    have bounds := (dense slot).mp held
    refine ⟨bounds.1, ?_⟩
    by_contra beyond
    have free := a.nextFree_notMem
    rw [dense] at free
    have := a.nextFree_nonneg
    omega
  · exact fun bounds => mem_occupied_of_lt_nextFree bounds.1 bounds.2

theorem empty (stem : String → String) : WellFormed { stem := stem } where
  dense := ⟨0, fun slot => by simp⟩
  bound found := by simp [Allocator.lookup, Table.get?] at found
  grouped found := by simp [group?, Table.get?] at found
  reserved found := by simp [Allocator.lookup, Table.get?] at found
  text name membership := by simp [names, Table.names] at membership

theorem withCount (wf : a.WellFormed) (count : Nat) :
    WellFormed { a with scratchCount := count } :=
  ⟨wf.dense, wf.bound, wf.grouped, wf.reserved, wf.text⟩

theorem bind (wf : a.WellFormed) (name : String) {slot : Int}
    (near : slot ∈ a.occupied ∨ slot = a.nextFree) : (a.bind (.ofText name) slot).WellFormed where
  dense := by
    have nonneg := a.nextFree_nonneg
    rcases near with held | rfl
    · refine ⟨a.nextFree.toNat, fun other => ?_⟩
      rw [mem_occupied_bind, wf.mem_occupied_iff]
      have bounds := (wf.mem_occupied_iff slot).mp held
      omega
    · refine ⟨a.nextFree.toNat + 1, fun other => ?_⟩
      rw [mem_occupied_bind, wf.mem_occupied_iff]
      omega
  bound {other place} found := by
    rw [lookup_bind] at found
    rw [mem_occupied_bind]
    split at found
    · cases found
      exact .inl rfl
    · exact .inr (wf.bound found)
  grouped found lower upper := (mem_occupied_bind ..).mpr (.inr (wf.grouped found lower upper))
  reserved {other place} found := by
    rw [lookup_bind] at found
    rw [mem_placeholders_bind]
    rintro ⟨held, elsewhere⟩
    split at found
    · exact elsewhere (Option.some.inj found).symm
    · exact wf.reserved found held
  text other membership := by
    rcases mem_names_bind _ _ _ membership with old | rfl
    · exact wf.text other old
    · exact ⟨name, rfl⟩

theorem force (wf : a.WellFormed) (name : String) {slot : Int} (held : slot ∈ a.occupied) :
    (a.force (.ofText name) slot).WellFormed := by
  unfold Allocator.force
  split
  · exact wf
  · exact wf.bind name (.inl held)

theorem place (wf : a.WellFormed) (name : String) : (a.place name).2.WellFormed := by
  cases known : a.lookup (.ofText name) with
  | some slot => rwa [place_of_lookup known]
  | none =>
    rw [place_of_unbound known]
    apply wf.bind
    cases based : a.group? (a.stem name) with
    | none => simp [bodySlot?, based]
    | some base =>
      left
      simp only [bodySlot?, based, Option.map_some, Option.getD_some]
      exact wf.grouped based (by omega) (by omega)

theorem grows {b : Allocator} (wf : a.WellFormed) (grown : Grows a b) : b.WellFormed :=
  grown.keeps wf (fun _ x kept => kept.place x) fun _ n kept => kept.withCount n

theorem scratch (wf : a.WellFormed) : a.scratch.2.WellFormed := wf.grows (.scratch .refl)

/-- Reserving slots that begin no later than at the next free one leaves no gap. -/
theorem reserve (wf : a.WellFormed) {start : Int} (nonneg : 0 ≤ start) (near : start ≤ a.nextFree)
    (length : Nat) : (a.reserve start length).WellFormed where
  dense := by
    refine ⟨max a.nextFree.toNat (start + length).toNat, fun slot => ?_⟩
    rw [mem_occupied_reserve, wf.mem_occupied_iff]
    have := a.nextFree_nonneg
    omega
  bound found := by
    rw [mem_occupied_reserve]
    unfold Allocator.lookup at found
    rw [bindings_reserve] at found
    exact .inl (wf.bound found)
  grouped found lower upper := by
    rw [mem_occupied_reserve]
    unfold group? at found
    rw [(a.reserve_frame start length).1.groups] at found
    exact .inl (wf.grouped found lower upper)
  reserved found membership := by
    unfold Allocator.lookup at found
    rw [bindings_reserve] at found
    rcases (mem_placeholders_reserve ..).mp membership with held | ⟨-, free⟩
    · exact wf.reserved found held
    · exact free (wf.bound found)
  text name membership := by
    unfold names at membership
    rw [bindings_reserve] at membership
    exact wf.text name membership

theorem setGroup (wf : a.WellFormed) (stem : String) {base : Int}
    (held : ∀ slot, base ≤ slot → slot ≤ base + 3 → slot ∈ a.occupied) :
    (a.setGroup (.ofText stem) base).WellFormed where
  dense := wf.dense
  bound := wf.bound
  grouped {other found slot} recorded lower upper := by
    rw [group?_of_groups_set rfl] at recorded
    split at recorded
    · cases recorded
      exact held slot lower upper
    · exact wf.grouped recorded lower upper
  reserved := wf.reserved
  text := wf.text

end WellFormed

/-- The place that holds an operand's value, if there is one: a register's slot, or the last slot of
its stem's group if it is unbound. -/
def home (a : Allocator) : Operand → Option Token
  | .register (.str name) => (a.peek name).map .register
  | .constant index => some (.constant index)
  | .upvalue index => some (.upvalue index)
  | _ => none

theorem home_reserve (a : Allocator) (start : Int) (length : Nat) (o : Operand) :
    (a.reserve start length).home o = a.home o := by
  cases o with
  | register name =>
    cases name with
    | str s =>
      obtain ⟨groups, names⟩ := a.reserve_frame start length
      simp only [home, peek, lookup, names, groups.bodySlot?]
    | _ => rfl
  | _ => rfl

/-- The slot that a register's value lives in is occupied. -/
theorem WellFormed.home_occupied {a : Allocator} (wf : a.WellFormed) {o : Operand} {slot : Int}
    (lives : a.home o = some (.register slot)) : slot ∈ a.occupied := by
  cases o with
  | register name =>
    cases name with
    | str s =>
      simp only [home, peek, Option.map_eq_some_iff, Token.register.injEq] at lives
      obtain ⟨_, peeked, rfl⟩ := lives
      cases known : a.lookup (.ofText s) with
      | some held =>
        rw [known, Option.some_or] at peeked
        cases peeked
        exact wf.bound known
      | none =>
        rw [known, Option.none_or, bodySlot?, Option.map_eq_some_iff] at peeked
        obtain ⟨base, based, rfl⟩ := peeked
        exact wf.grouped based (by omega) (by omega)
    | _ => simp [home] at lives
  | _ => simp [home] at lives

theorem livesAt_of_resolvable (a : Allocator) {o : Operand} (resolvable : o.Resolvable) :
    a.livesAt o = .ok (a.home o) := by
  cases o with
  | register name =>
    cases name with
    | str s =>
      cases known : a.lookup (.ofText s) <;>
        simp [livesAt, peekValue, lookupValue, nameOf, Name.of?_str, nameText, Except.map, home, peek,
          known]
    | _ => exact False.elim resolvable
  | other v => exact False.elim resolvable
  | _ => rfl

theorem WellFormed.eq_str_of_lookup {a : Allocator} (wf : a.WellFormed) {v : Value} {n : Name}
    {slot : Int} (named : Name.of? v = some n) (known : a.lookup n = some slot) :
    ∃ s, v = .str s := by
  obtain ⟨m, membership, key⟩ := Table.exists_mem_of_get? known
  obtain ⟨s, rfl⟩ := wf.text m (List.mem_map_of_mem membership)
  have keyed := Name.of?_eq_some named
  rw [← key] at keyed
  exact ⟨s, Name.eq_str_of_key? keyed⟩

theorem WellFormed.placeValue_eq_ok {a b : Allocator} (wf : a.WellFormed) {v : Value} {slot : Int}
    (h : a.placeValue v = .ok (slot, b)) : ∃ x, v = .str x ∧ a.place x = (slot, b) := by
  unfold placeValue at h
  split at h
  · cases h
  · rename_i held known
    cases h
    cases named : Name.of? v with
    | none => simp [lookupValue, nameOf, named, Except.map] at known
    | some n =>
      simp only [lookupValue, nameOf, named, Except.map, Except.ok.injEq] at known
      obtain ⟨x, rfl⟩ := wf.eq_str_of_lookup named known
      rw [Name.of?_str, Option.some.injEq] at named
      exact ⟨x, rfl, place_of_lookup (named ▸ known)⟩
  · cases v with
    | str x => exact ⟨x, rfl, by simpa [nameText, Except.map] using h⟩
    | _ => simp [nameText, Except.map] at h

theorem WellFormed.resolvable_of_livesAt {a : Allocator} (wf : a.WellFormed) {o : Operand}
    {t : Option Token} (h : a.livesAt o = .ok t) : o.Resolvable := by
  cases o with
  | constant index => trivial
  | upvalue index => trivial
  | other v => simp [livesAt, refuse] at h
  | register v =>
    suffices ∃ s, v = .str s by
      obtain ⟨s, rfl⟩ := this
      trivial
    cases named : Name.of? v with
    | none => simp [livesAt, peekValue, lookupValue, nameOf, named, Except.map] at h
    | some n =>
      cases known : a.lookup n with
      | some slot => exact wf.eq_str_of_lookup named known
      | none =>
        cases v with
        | str s => exact ⟨s, rfl⟩
        | _ =>
          simp [livesAt, peekValue, lookupValue, nameOf, named, known, nameText, Except.map] at h

def controlCopies (a : Allocator) (controls : List (Operand × Int)) : List Copy :=
  controls.flatMap fun p => copyTo p.1 p.2 (a.home p.1)

theorem copies_of_resolvable (a : Allocator) {controls : List (Operand × Int)}
    (resolvable : ∀ p ∈ controls, p.1.Resolvable) :
    a.copies controls = .ok (a.controlCopies controls) := by
  induction controls with
  | nil => rfl
  | cons p rest ih =>
    have first := a.livesAt_of_resolvable (resolvable p (by simp))
    have others := ih fun q hq => resolvable q (by simp [hq])
    simp only [copies, first, others, Except.map, controlCopies, List.flatMap_cons]

theorem WellFormed.resolvable_of_copies {a : Allocator} (wf : a.WellFormed)
    {controls : List (Operand × Int)} {copied : List Copy} (h : a.copies controls = .ok copied) :
    ∀ p ∈ controls, p.1.Resolvable := by
  induction controls generalizing copied with
  | nil => simp
  | cons p rest ih =>
    simp only [copies] at h
    split at h
    · cases h
    · rename_i token lives
      obtain ⟨more, others, -⟩ := Except.map_eq_ok.mp h
      intro q hq
      rcases List.mem_cons.mp hq with rfl | later
      · exact wf.resolvable_of_livesAt lives
      · exact ih others q later

theorem rangeNames_of_named {operands : List Operand} (named : ∀ o ∈ operands, o.Named) :
    ∃ range, rangeNames operands = .ok range := by
  induction operands with
  | nil => exact ⟨[], rfl⟩
  | cons o rest ih =>
    obtain ⟨range, others⟩ := ih fun p hp => named p (by simp [hp])
    cases o with
    | register v =>
      obtain ⟨s, rfl⟩ := named (.register v) (by simp)
      exact ⟨.ofText s :: range, by simp [rangeNames, nameOf, Name.of?_str, others, Except.map]⟩
    | _ => exact ⟨range, by simpa [rangeNames] using others⟩

/-- The first slot that the group of a loop gets: the slot of its index or else a free one. -/
def entrySlot (a : Allocator) (index : String) : Int :=
  (a.lookup (.ofText index)).getD a.nextFree

def controls (a : Allocator) (index : String) (limit step : Operand) : List (Operand × Int) :=
  [(.register (.str index), a.entrySlot index), (limit, a.entrySlot index + 1),
    (step, a.entrySlot index + 2)]

theorem forall_controls (a : Allocator) {index : String} {limit step : Operand}
    {P : Operand → Prop} : (∀ p ∈ a.controls index limit step, P p.1) ↔
      P (.register (.str index)) ∧ P limit ∧ P step := by
  simp only [controls, List.mem_cons, List.not_mem_nil, or_false, forall_eq_or_imp, forall_eq]

theorem WellFormed.entrySlot_bounds {a : Allocator} (wf : a.WellFormed) (index : String) :
    0 ≤ a.entrySlot index ∧ a.entrySlot index ≤ a.nextFree := by
  unfold entrySlot
  cases known : a.lookup (.ofText index) with
  | none => exact ⟨a.nextFree_nonneg, Int.le_refl _⟩
  | some slot =>
    have bounds := (wf.mem_occupied_iff slot).mp (wf.bound known)
    exact ⟨bounds.1, Int.le_of_lt bounds.2⟩

theorem WellFormed.stemless_eq_none {a : Allocator} (wf : a.WellFormed) (base : Int)
    (range : List Name) : a.stemless? base range = none := by
  rw [stemless?, Option.map_eq_none_iff, List.find?_eq_none]
  intro b crossed
  obtain ⟨s, named⟩ := wf.text b.1 (List.mem_map_of_mem (List.mem_filter.mp crossed).1)
  simp [named]

theorem mem_occupied_force {a : Allocator} {name : Name} {slot other : Int}
    (held : other ∈ a.occupied) : other ∈ (a.force name slot).occupied := by
  unfold force
  split
  · exact held
  · exact (mem_occupied_bind ..).mpr (.inr held)

theorem sameGroups_pin (a : Allocator) (o : Operand) (slot : Int) : SameGroups a (a.pin o slot) := by
  unfold pin
  split
  · split
    · exact a.sameGroups_force _ slot
    · exact .refl a
  · exact .refl a

theorem mem_occupied_pin {a : Allocator} {o : Operand} {slot other : Int}
    (held : other ∈ a.occupied) : other ∈ (a.pin o slot).occupied := by
  unfold pin
  split
  · split
    · exact mem_occupied_force held
    · exact held
  · exact held

theorem WellFormed.pin {a : Allocator} (wf : a.WellFormed) {o : Operand}
    (resolvable : o.Resolvable) {slot : Int} (held : slot ∈ a.occupied) :
    (a.pin o slot).WellFormed := by
  cases o with
  | register v =>
    cases v with
    | str s => exact wf.force s held
    | _ => exact False.elim resolvable
  | _ => exact wf

/-- The names of a loop are gathered without a failure, and nothing is recorded about groups. -/
theorem WellFormed.gather {a : Allocator} (wf : a.WellFormed) (stem : String) (range : List Name)
    {slot : Int} (held : slot ∈ a.occupied) {names : List Name}
    (texts : ∀ n ∈ names, ∃ s, n = .ofText s) :
    ∃ b, a.gather stem range slot names = (b, .ok ()) ∧ b.WellFormed ∧ SameGroups a b := by
  induction names generalizing a with
  | nil => exact ⟨a, rfl, wf, .refl a⟩
  | cons n rest ih =>
    obtain ⟨s, rfl⟩ := texts n (by simp)
    have others : ∀ m ∈ rest, ∃ s, m = .ofText s := fun m hm => texts m (by simp [hm])
    simp only [Allocator.gather, Name.text?_ofText]
    split
    · exact ih wf held others
    · split
      · obtain ⟨b, gathered, wfb, same⟩ := ih (wf.force s held) (mem_occupied_force held) others
        exact ⟨b, gathered, wfb, (a.sameGroups_force _ slot).trans same⟩
      · exact ih wf held others

theorem mem_occupied_reserve_group {a : Allocator} {base slot : Int} (lower : base ≤ slot)
    (upper : slot ≤ base + 3) : slot ∈ (a.reserve base groupSize).occupied := by
  rw [mem_occupied_reserve]
  right
  simp only [groupSize, Nat.cast_ofNat]
  omega

/-- The copies for a loop do not depend on the reservation of its slots. -/
theorem copies_reserve_group (a : Allocator) (index : String) {limit step : Operand}
    (hl : limit.Resolvable) (hs : step.Resolvable) :
    (a.reserve (a.entrySlot index) groupSize).copies (a.controls index limit step) =
      .ok (a.controlCopies (a.controls index limit step)) := by
  rw [copies_of_resolvable]
  · simp only [controlCopies, home_reserve]
  · exact a.forall_controls.mpr ⟨trivial, hl, hs⟩

/-- The allocator when the controls of a loop are in their slots and its group is recorded; the names
of its stem are yet to be gathered. -/
def seated (a : Allocator) (index : String) (limit step : Operand) : Allocator :=
  ((((a.reserve (a.entrySlot index) groupSize).force (.ofText index) (a.entrySlot index)).pin limit
    (a.entrySlot index + 1)).pin step (a.entrySlot index + 2)).setGroup (.ofText (a.stem index))
      (a.entrySlot index)

theorem seated_frame (a : Allocator) (index : String) (limit step : Operand) :
    (a.seated index limit step).stem = a.stem ∧ (a.seated index limit step).groups =
      Table.set a.groups (.ofText (a.stem index)) (a.entrySlot index) := by
  have kept := (a.reserve_frame (a.entrySlot index) groupSize).1.trans
    (((sameGroups_force _ (.ofText index) (a.entrySlot index)).trans
      (sameGroups_pin _ limit (a.entrySlot index + 1))).trans
        (sameGroups_pin _ step (a.entrySlot index + 2)))
  exact ⟨kept.stem, by rw [seated, setGroup, kept.groups]⟩

theorem mem_occupied_seated {a : Allocator} (index : String) (limit step : Operand) {slot : Int}
    (held : slot ∈ (a.reserve (a.entrySlot index) groupSize).occupied) :
    slot ∈ (a.seated index limit step).occupied :=
  mem_occupied_pin (mem_occupied_pin (mem_occupied_force held))

theorem WellFormed.seated {a : Allocator} (wf : a.WellFormed) (index : String)
    {limit step : Operand} (hl : limit.Resolvable) (hs : step.Resolvable) :
    (a.seated index limit step).WellFormed := by
  obtain ⟨nonneg, near⟩ := wf.entrySlot_bounds index
  have reserved := wf.reserve nonneg near groupSize
  -- Every slot of the group is reserved before a name is moved into it.
  have held : ∀ slot, a.entrySlot index ≤ slot → slot ≤ a.entrySlot index + 3 →
      slot ∈ (a.reserve (a.entrySlot index) groupSize).occupied :=
    fun slot lower upper => mem_occupied_reserve_group lower upper
  have pinnedIndex := reserved.force index (held (a.entrySlot index) (by omega) (by omega))
  have pinnedLimit := pinnedIndex.pin hl
    (mem_occupied_force (held (a.entrySlot index + 1) (by omega) (by omega)))
  have pinnedStep := pinnedLimit.pin hs
    (mem_occupied_pin (mem_occupied_force (held (a.entrySlot index + 2) (by omega) (by omega))))
  exact pinnedStep.setGroup (a.stem index) fun slot lower upper =>
    mem_occupied_pin (mem_occupied_pin (mem_occupied_force (held slot lower upper)))

theorem WellFormed.occupyGroup {a : Allocator} (wf : a.WellFormed) (index : String)
    {limit step : Operand} (hl : limit.Resolvable) (hs : step.Resolvable) (range : List Name) :
    ∃ b, (a.seated index limit step).gather (a.stem index) range (a.entrySlot index + 3)
        (a.seated index limit step).names = (b, .ok ()) ∧
      a.occupyGroup index limit step (a.entrySlot index) range =
        (b, .ok (a.controlCopies (a.controls index limit step))) ∧ b.WellFormed ∧
      b.stem = a.stem ∧
      b.groups = Table.set a.groups (.ofText (a.stem index)) (a.entrySlot index) := by
  have seated := wf.seated index hl hs
  have copied := a.copies_reserve_group index hl hs
  have last : a.entrySlot index + 3 ∈ (a.seated index limit step).occupied :=
    mem_occupied_seated index limit step (mem_occupied_reserve_group (by omega) (by omega))
  obtain ⟨b, gathered, wfb, same⟩ := seated.gather (a.stem index) range last seated.text
  obtain ⟨stems, groups⟩ := a.seated_frame index limit step
  refine ⟨b, gathered, ?_, wfb, same.stem.trans stems, same.groups.trans groups⟩
  simp only [Allocator.occupyGroup]
  simp only [controls] at copied
  simp only [Allocator.seated] at gathered
  rw [copied]
  simp only [gathered]
  rfl

/-- A loop whose operands can be resolved is laid out: its controls are seated and the names of its stem
gathered. -/
theorem WellFormed.layOut {a : Allocator} (wf : a.WellFormed) (index : String)
    {limit step : Operand} (hl : limit.Resolvable) (hs : step.Resolvable) :
    ∃ b range, rangeNames [limit, step] = .ok range ∧
      (a.seated index limit step).gather (a.stem index) range (a.entrySlot index + 3)
        (a.seated index limit step).names = (b, .ok ()) ∧
      a.layOut (.register (.str index)) limit step =
        (b, a.takeovers (a.stem index) (a.entrySlot index) range,
          .ok ⟨a.stem index, a.entrySlot index, a.controlCopies (a.controls index limit step),
            (a.takeovers (a.stem index) (a.entrySlot index) range).map Takeover.name⟩) ∧
      b.WellFormed ∧ b.stem = a.stem ∧
      b.groups = Table.set a.groups (.ofText (a.stem index)) (a.entrySlot index) := by
  have operands : ∀ o ∈ [limit, step], o.Resolvable := by simp [hl, hs]
  obtain ⟨range, ranged⟩ := rangeNames_of_named fun o ho => (operands o ho).named
  obtain ⟨b, gathered, occupied, facts⟩ := wf.occupyGroup index hl hs range
  refine ⟨b, range, ranged, gathered, ?_, facts⟩
  unfold entrySlot at occupied
  simp only [Allocator.layOut, layOutNamed, ranged, wf.stemless_eq_none, occupied]
  rfl

/-- The copies of a loop are asked for before anything but the reservation is changed. -/
theorem WellFormed.layOut_of_copies {a : Allocator} (wf : a.WellFormed) {index : String}
    {limit step : Operand} {range : List Name} {f : Failure}
    (ranged : rangeNames [limit, step] = .ok range)
    (copied : (a.reserve (a.entrySlot index) groupSize).copies (a.controls index limit step) =
      .error f) :
    a.layOut (.register (.str index)) limit step = (a.reserve (a.entrySlot index) groupSize,
      a.takeovers (a.stem index) (a.entrySlot index) range, .error f) := by
  have failed : a.occupyGroup index limit step (a.entrySlot index) range =
      (a.reserve (a.entrySlot index) groupSize, .error f) := by
    simp only [controls] at copied
    simp only [Allocator.occupyGroup, copied]
  unfold entrySlot at failed ⊢
  simp only [Allocator.layOut, layOutNamed, ranged, wf.stemless_eq_none, failed]

/-- A loop that cannot be laid out leaves at most the reservation of its slots. -/
theorem WellFormed.layOut_of_not_resolvable {a : Allocator} (wf : a.WellFormed)
    {index limit step : Operand}
    (stuck : ¬ ((∃ s, index = .register (.str s)) ∧ limit.Resolvable ∧ step.Resolvable)) :
    ∃ b taken f, a.layOut index limit step = (b, taken, .error f) ∧ b.WellFormed ∧
      SameGroups a b ∧ b.bindings = a.bindings := by
  by_cases text : ∃ s, index = .register (.str s)
  · obtain ⟨s, rfl⟩ := text
    cases ranged : rangeNames [limit, step] with
    | error f =>
      simp only [Allocator.layOut, layOutNamed, ranged]
      exact ⟨a, [], f, rfl, wf, .refl a, rfl⟩
    | ok range =>
      obtain ⟨nonneg, near⟩ := wf.entrySlot_bounds s
      have reserved := wf.reserve nonneg near groupSize
      cases copied : (a.reserve (a.entrySlot s) groupSize).copies (a.controls s limit step) with
      | ok copies =>
        have resolvable := a.forall_controls.mp (reserved.resolvable_of_copies copied)
        exact absurd ⟨⟨s, rfl⟩, resolvable.2⟩ stuck
      | error f =>
        exact ⟨_, _, f, wf.layOut_of_copies ranged copied, reserved, a.reserve_frame ..⟩
  · cases index with
    | register v =>
      cases v with
      | str s => exact absurd ⟨s, rfl⟩ text
      | _ => exact ⟨a, [], _, rfl, wf, .refl a, rfl⟩
    | _ => exact ⟨a, [], _, rfl, wf, .refl a, rfl⟩

theorem seed_grows (a : Allocator) (names : List Value) : Grows a (a.seed names).1 := by
  induction names generalizing a with
  | nil => exact .refl
  | cons v rest ih =>
    unfold seed
    split
    · rename_i slot b placed
      exact (placeValue_grows placed).trans (ih b)
    · exact .refl

end BlockAsm.Allocator

namespace BlockAsm.Context

open Allocator

def entryLines (a : Allocator) (index : String) (limit step : Operand) (target : Value) : List Line :=
  (a.controlCopies (a.controls index limit step)).map copyLine ++
    [.code ⟨.forprep, [.register (a.entrySlot index)], [target]⟩]

theorem enterLoop_of_resolvable {c : Context} (wf : c.allocator.WellFormed) (index : String)
    {limit step : Operand} (hl : limit.Resolvable) (hs : step.Resolvable) (target : Value) :
    ∃ d, c.enterLoop (.register (.str index)) limit step target = (d, .ok ()) ∧
      d.lines = c.lines ++ entryLines c.allocator index limit step target ∧
      d.allocator.WellFormed ∧ d.allocator.stem = c.allocator.stem ∧
      d.allocator.groups = Table.set c.allocator.groups (.ofText (c.allocator.stem index))
        (c.allocator.entrySlot index) := by
  obtain ⟨b, range, -, -, laid, facts⟩ := wf.layOut index hl hs
  simp only [enterLoop, laid]
  exact ⟨_, rfl, rfl, facts⟩

theorem enterLoop_of_not_resolvable {c : Context} (wf : c.allocator.WellFormed)
    {index limit step : Operand}
    (stuck : ¬ ((∃ s, index = .register (.str s)) ∧ limit.Resolvable ∧ step.Resolvable))
    (target : Value) :
    ∃ d f, c.enterLoop index limit step target = (d, .error f) ∧ d.allocator.WellFormed ∧
      SameGroups c.allocator d.allocator ∧ d.allocator.bindings = c.allocator.bindings := by
  obtain ⟨b, taken, f, laid, facts⟩ := wf.layOut_of_not_resolvable stuck
  simp only [enterLoop, laid]
  exact ⟨_, f, rfl, facts⟩

theorem resolvable_of_enterLoop {c : Context} (wf : c.allocator.WellFormed)
    {index limit step : Operand} {target : Value}
    (succeeded : (c.enterLoop index limit step target).2 = .ok ()) :
    (∃ s, index = .register (.str s)) ∧ limit.Resolvable ∧ step.Resolvable := by
  by_contra stuck
  obtain ⟨d, f, failed, -⟩ := enterLoop_of_not_resolvable wf stuck target
  rw [failed] at succeeded
  cases succeeded

/-- What an entry that is lowered without a failure leaves. -/
theorem lower_entry {c : Context} (wf : c.allocator.WellFormed) {item : Item}
    (tagged : item.opcode? = some .forprep) (succeeded : (c.lower item).2 = .ok ()) :
    ∃ index limit step target, item.index? = some index ∧
      c.emitted item = entryLines c.allocator index limit step target ∧
      (c.lower item).1.allocator.groups = Table.set c.allocator.groups
        (.ofText (c.allocator.stem index)) (c.allocator.entrySlot index) := by
  obtain ⟨index, limit, step, target, rest, given, lowered⟩ := lower_of_forprep tagged succeeded
  rw [lowered] at succeeded
  obtain ⟨⟨s, rfl⟩, hl, hs⟩ := resolvable_of_enterLoop wf succeeded
  obtain ⟨d, entered, lines, -, -, groups⟩ := enterLoop_of_resolvable wf s hl hs target
  rw [entered] at lowered
  refine ⟨s, limit, step, target, by rw [Item.index?, given], ?_, by rw [lowered, groups]⟩
  exact emitted_eq (by rw [lowered, lines])

/-- Lowering leaves the groups alone unless it succeeds in entering a loop. -/
theorem lower_groups {c : Context} (wf : c.allocator.WellFormed) (item : Item) :
    (c.lower item).1.allocator.WellFormed ∧
      (c.lower item).1.allocator.stem = c.allocator.stem ∧
      ((c.lower item).1.allocator.groups = c.allocator.groups ∨
        item.opcode? = some .forprep ∧ (c.lower item).2 = .ok ()) := by
  rcases c.lower_cases item with
    grown | ⟨index, limit, step, target, rest, tagged, given, entered⟩
  · exact ⟨wf.grows grown, grown.sameGroups.stem, .inl grown.sameGroups.groups⟩
  · rw [entered]
    by_cases ready : (∃ s, index = .register (.str s)) ∧ limit.Resolvable ∧ step.Resolvable
    · obtain ⟨⟨s, rfl⟩, hl, hs⟩ := ready
      obtain ⟨d, laid, -, wfd, stems, -⟩ := enterLoop_of_resolvable wf s hl hs target
      rw [laid]
      exact ⟨wfd, stems, .inr ⟨tagged, rfl⟩⟩
    · obtain ⟨d, f, laid, wfd, same, -⟩ := enterLoop_of_not_resolvable wf ready target
      rw [laid]
      exact ⟨wfd, same.stem, .inl same.groups⟩

theorem create_eq_ok {suffix locals : Value} {c : Context} (h : create suffix locals = .ok c) :
    ∃ p names a, suffixPattern suffix = .ok p ∧ locals.members? = some names ∧
      seed { stem := p.stem } names = (a, .ok ()) ∧ c = { allocator := a } := by
  unfold create at h
  split at h
  · cases h
  · rename_i p read
    split at h
    · cases h
    · rename_i names named
      have members : locals.members? = some names := by
        unfold localNames at named
        split at named
        · rename_i given
          cases named
          exact given
        · cases named
      split at h
      · rename_i a seeded
        cases h
        exact ⟨p, names, a, read, members, seeded, rfl⟩
      · cases h

/-- Contexts in which declared names are bound and nothing has been lowered, whatever the stems are. -/
inductive Seeded : Context → Prop
  | names (stem : String → String) {names : List Value} {a : Allocator} :
      seed { stem := stem } names = (a, .ok ()) → Seeded { allocator := a }

theorem create_seeded {suffix locals : Value} {c : Context} (h : create suffix locals = .ok c) :
    c.Seeded := by
  obtain ⟨p, names, a, -, -, seeded, rfl⟩ := create_eq_ok h
  exact .names p.stem seeded

theorem Seeded.grows {c : Context} (seeded : c.Seeded) :
    ∃ stem, Grows { stem := stem } c.allocator := by
  cases seeded with
  | @names stem names a bound =>
    have grown := seed_grows { stem := stem } names
    rw [bound] at grown
    exact ⟨stem, grown⟩

theorem Seeded.wellFormed {c : Context} (seeded : c.Seeded) : c.allocator.WellFormed := by
  obtain ⟨stem, grown⟩ := seeded.grows
  exact (WellFormed.empty stem).grows grown

theorem Seeded.lines {c : Context} (seeded : c.Seeded) : c.lines = [] := by
  cases seeded
  rfl

/-- The context that the default suffix gives when no locals are declared. -/
def fresh : Context := { allocator := { stem := Pattern.occurrence.stem } }

theorem create_default : create (.str defaultSuffix) (.list []) = .ok fresh := by
  simp only [create, suffixPattern, Pattern.parse_defaultSuffix]
  rfl

theorem fresh_seeded : fresh.Seeded := create_seeded create_default

theorem lowerEach_wellFormed {c : Context} (wf : c.allocator.WellFormed) (items : List Item) :
    (c.lowerEach items).allocator.WellFormed := by
  induction items generalizing c with
  | nil => exact wf
  | cons item items ih => exact ih (lower_groups wf item).1

theorem lowerEach_stem {c : Context} (wf : c.allocator.WellFormed) (items : List Item) :
    (c.lowerEach items).allocator.stem = c.allocator.stem := by
  induction items generalizing c with
  | nil => rfl
  | cons item items ih =>
    obtain ⟨wf', stems, -⟩ := lower_groups wf item
    rw [lowerEach_cons, ih wf', stems]

end BlockAsm.Context

namespace BlockAsm.Allocator

/-- The allocators that lowering items in a fresh context leads to. -/
inductive Reachable : Allocator → Prop
  | fresh {c : Context} : c.Seeded → Reachable c.allocator
  | lower {c : Context} (item : Item) :
      Reachable c.allocator → Reachable (c.lower item).1.allocator

theorem Reachable.wellFormed {a : Allocator} (reached : Reachable a) : a.WellFormed := by
  induction reached with
  | fresh seeded => exact seeded.wellFormed
  | lower item _ ih => exact (Context.lower_groups ih item).1

end BlockAsm.Allocator
