import BlockAsm.Proofs.Occupancy
import BlockAsm.Proofs.RenamedFunctions
import BlockAsm.Proofs.ScratchSlots

/-!
What a return gives back. Its constants are loaded one after the other into slots that nothing has held,
and its registers are read where they are, so no load reaches a register that is read on the same line:
the return gives back each constant and, for each register, what its slot held before the loads. This
needs that scratch names are left to the scratch registers, since a loop over one would bring its slots
together with theirs.
-/

namespace BlockAsm

universe u v

/-- An operand that is returned, and the slot that it is read from. -/
abbrev Seat := Operand × Int

namespace Seat

def target? : Seat → Option Int
  | (.constant _, slot) => some slot
  | _ => none

def load? : Seat → Option Line
  | (.constant index, slot) => some (.code ⟨.loadk, [.register slot, .constant index], []⟩)
  | _ => none

def token (s : Seat) : Token := .register s.2

end Seat

namespace Interpretation

variable {V : Type u} {M : Type v} (I : Interpretation V M)

/-- What is read from a seat in the end: the constant, or what the slot held at the start. -/
def seated (t : Store Int V M) : Seat → V
  | (.constant index, _) => I.pool index
  | (_, slot) => t.cells slot

theorem runLines_loads (seats : List Seat) (t : Store Int V M) :
    ∃ t', I.runLines t (seats.filterMap Seat.load?) = some (t', []) ∧
      (∀ slot ∉ seats.filterMap Seat.target?, t'.cells slot = t.cells slot) ∧
      ((seats.filterMap Seat.target?).Nodup → ∀ index slot, (.constant index, slot) ∈ seats →
        t'.cells slot = I.pool index) := by
  induction seats generalizing t with
  | nil => exact ⟨t, rfl, fun _ _ => rfl, fun _ _ _ membership => by cases membership⟩
  | cons seat rest ih =>
    obtain ⟨o, slot⟩ := seat
    by_cases constant : ∃ index, o = .constant index
    · obtain ⟨index, rfl⟩ := constant
      obtain ⟨t', ran, untouched, loaded⟩ := ih (t.put slot (I.pool index, t.memory))
      refine ⟨t', ?_, ?_, ?_⟩
      · exact I.runLines_append (I.runLines_singleton (I.runLine_load t slot index)) ran
      · intro other outside
        simp only [List.filterMap_cons, Seat.target?, List.mem_cons, not_or] at outside
        rw [untouched other outside.2, Store.cells_put_of_ne _ _ outside.1]
      · intro distinct other place membership
        simp only [List.filterMap_cons, Seat.target?, List.nodup_cons] at distinct
        rcases List.mem_cons.mp membership with here | later
        · -- no later load writes to this slot again
          cases here
          rw [untouched slot distinct.1, Store.cells_put_self]
        · exact loaded distinct.2 other place later
    · have silent : Seat.load? (o, slot) = none ∧ Seat.target? (o, slot) = none := by
        cases o with
        | constant index => exact absurd ⟨index, rfl⟩ constant
        | _ => exact ⟨rfl, rfl⟩
      obtain ⟨t', ran, untouched, loaded⟩ := ih t
      rw [List.filterMap_cons_none silent.1, List.filterMap_cons_none silent.2]
      refine ⟨t', ran, untouched, ?_⟩
      intro distinct index place membership
      rcases List.mem_cons.mp membership with here | later
      · cases here
        exact absurd ⟨index, rfl⟩ constant
      · exact loaded distinct index place later

end Interpretation

namespace Allocator

/-- No loop has a scratch name for its stem. -/
def ScratchFree (a : Allocator) : Prop := ∀ x, IsScratch x → a.group? (a.stem x) = none

theorem ScratchFree.grows {a b : Allocator} (free : a.ScratchFree) (grown : Grows a b) :
    b.ScratchFree := by
  intro x scratch
  rw [grown.sameGroups.stem, group?, grown.sameGroups.groups]
  exact free x scratch

/-- How the operands of a return are seated when the allocator goes from `a` to `b`: constants in
different slots that were free, registers in their own slots and apart from the constants. -/
structure Seats (a b : Allocator) (seats : List Seat) : Prop where
  free : ∀ slot ∈ seats.filterMap Seat.target?, slot ∉ a.occupied
  distinct : (seats.filterMap Seat.target?).Nodup
  apart : ∀ x slot, (.register (.str x), slot) ∈ seats → slot ∉ seats.filterMap Seat.target?
  bound : ∀ x slot, (.register (.str x), slot) ∈ seats → b.lookup (.ofText x) = some slot
  kept : ∀ x slot place, (.register (.str x), slot) ∈ seats → a.peek x = some place → place = slot

namespace Seats

variable {a b c : Allocator} {seats : List Seat}

theorem nil (a : Allocator) : a.Seats a [] where
  free _ membership := by cases membership
  distinct := List.nodup_nil
  apart _ _ membership := by cases membership
  bound _ _ membership := by cases membership
  kept _ _ _ membership := by cases membership

theorem constant (seated : a.scratch.2.Seats b seats) (wf : a.WellFormed) (free : a.ScratchFree)
    (grown : Grows a.scratch.2 b)
    (plain : ∀ x slot, (.register (.str x), slot) ∈ seats → ¬ IsScratch x) (index : Value) :
    a.Seats b ((.constant index, a.scratch.1) :: seats) := by
  have growth : Grows a a.scratch.2 := .scratch .refl
  obtain ⟨untouched, owns⟩ := wf.scratch_owns (free _ a.isScratch_nextScratch)
  constructor
  · intro slot membership
    rcases List.mem_cons.mp membership with rfl | later
    · exact untouched.free
    · exact fun held => seated.free slot later (growth.occupied held)
  · refine List.nodup_cons.mpr ⟨?_, seated.distinct⟩
    exact fun again => seated.free _ again wf.scratch_occupied
  · intro x slot membership
    have later := List.mem_of_ne_of_mem (by simp) membership
    refine List.not_mem_cons_of_ne_of_not_mem ?_ (seated.apart x slot later)
    -- only the scratch name has the slot of a constant
    rintro rfl
    have own := (owns.grows wf.scratch grown).alone x (seated.bound x _ later)
    exact plain x _ later (own ▸ a.isScratch_nextScratch)
  · intro x slot membership
    exact seated.bound x slot (List.mem_of_ne_of_mem (by simp) membership)
  · intro x slot place membership peeked
    exact seated.kept x slot place (List.mem_of_ne_of_mem (by simp) membership) (growth.peek peeked)

theorem register (seated : b.Seats c seats) (wf : a.WellFormed) (grown : Grows b c) {name : String}
    {slot : Int} (resolved : a.resolve (.register (.str name)) = .ok (.register slot, b)) :
    a.Seats c ((.register (.str name), slot) :: seats) := by
  have growth := resolve_grows resolved
  have held : slot ∈ b.occupied := wf.resolve_occupied resolved
  have home : b.lookup (.ofText name) = some slot := by
    have placed := a.lookup_place_self name
    simp only [resolve, placeValue_str, Except.ok.injEq, Prod.mk.injEq, Token.register.injEq] at resolved
    rwa [resolved.1, resolved.2] at placed
  constructor
  · exact fun other membership before => seated.free other membership (growth.occupied before)
  · exact seated.distinct
  · intro x other membership
    rcases List.mem_cons.mp membership with here | later
    · cases here
      exact fun loaded => seated.free slot loaded held
    · exact seated.apart x other later
  · intro x other membership
    rcases List.mem_cons.mp membership with here | later
    · cases here
      exact grown.lookup home
    · exact seated.bound x other later
  · intro x other place membership peeked
    rcases List.mem_cons.mp membership with here | later
    · cases here
      obtain ⟨_, read⟩ := resolve_of_peek peeked
      rw [resolved] at read
      cases read
      rfl
    · exact seated.kept x other place later (growth.peek peeked)

theorem values (seated : a.Seats b seats)
    (returnable : ∀ s ∈ seats, (∃ x, s.1 = .register (.str x)) ∨ ∃ index, s.1 = .constant index)
    {V : Type u} {M : Type v} (I : Interpretation V M) (t : Store Int V M) :
    ∃ t', I.runLines t (seats.filterMap Seat.load?) = some (t', []) ∧
      seats.map (fun s => I.token t' s.token) = seats.map (I.seated t) := by
  obtain ⟨t', ran, untouched, loaded⟩ := I.runLines_loads seats t
  refine ⟨t', ran, List.map_congr_left ?_⟩
  rintro ⟨o, slot⟩ membership
  rcases returnable _ membership with ⟨x, rfl⟩ | ⟨index, rfl⟩
  · exact untouched slot (seated.apart x slot membership)
  · exact loaded seated.distinct index slot membership

end Seats

end Allocator

theorem Instruction.mem_names_of_mem_args {i : Instruction} {x : String}
    (membership : .register (.str x) ∈ i.args) : x ∈ i.names := by
  obtain ⟨n, bound, given⟩ := List.mem_iff_getElem.mp membership
  apply List.mem_append_right
  rw [List.reduceOption_mem_iff, List.mem_mapIdx]
  refine ⟨n, bound, ?_⟩
  rw [given, Instruction.argName?]
  split <;> rfl

theorem Item.mem_names_of_index? {item : Item} {x : String} (named : item.index? = some x) :
    x ∈ item.names := by
  cases item with
  | other v => cases named
  | instruction i =>
    apply Instruction.mem_names_of_mem_args
    simp only [index?, args] at named
    split at named
    · rename_i given
      cases named
      rw [given]
      exact List.mem_cons_self
    · cases named

namespace Context

open Allocator

/-- Returned operands are seated, and the lines that come of them are the loads. -/
theorem resolveReturned_seats {c : Context} (wf : c.allocator.WellFormed)
    (free : c.allocator.ScratchFree) {operands : List Operand}
    (returnable : ∀ o ∈ operands,
      (∃ x, o = .register (.str x) ∧ ¬ IsScratch x) ∨ ∃ index, o = .constant index) :
    ∃ d seats, seats.map Prod.fst = operands ∧
      c.resolveReturned operands = (d, .ok (seats.map Seat.token)) ∧
      d.lines = c.lines ++ seats.filterMap Seat.load? ∧
      c.allocator.Seats d.allocator seats := by
  induction operands generalizing c with
  | nil => exact ⟨c, [], rfl, rfl, (List.append_nil _).symm, .nil _⟩
  | cons o rest ih =>
    have later : ∀ p ∈ rest, (∃ x, p = .register (.str x) ∧ ¬ IsScratch x) ∨
        ∃ index, p = .constant index := fun p membership => returnable p (by simp [membership])
    rcases returnable o (by simp) with ⟨x, rfl, plain⟩ | ⟨index, rfl⟩
    · obtain ⟨slot, b, resolved⟩ : ∃ slot b, c.allocator.resolve (.register (.str x)) =
          .ok (.register slot, b) := by
        simp only [resolve, placeValue_str]
        exact ⟨_, _, rfl⟩
      have grown := resolve_grows resolved
      obtain ⟨d, seats, same, others, lines, seated⟩ :=
        ih (c := c.withAllocator b) (wf.grows grown) (free.grows grown) later
      have further := (c.withAllocator b).resolveReturned_grows rest
      rw [others] at further
      refine ⟨d, (.register (.str x), slot) :: seats, by rw [List.map_cons, same], ?_, lines,
        seated.register wf further resolved⟩
      simp only [resolveReturned, resolved, others]
      rfl
    · obtain ⟨d, seats, same, others, lines, seated⟩ :=
        ih (c := (c.withAllocator c.allocator.scratch.2).writeCode .loadk
          [.register c.allocator.scratch.1, .constant index] []) wf.scratch
          (free.grows (.scratch .refl)) later
      have further := ((c.withAllocator c.allocator.scratch.2).writeCode .loadk
          [.register c.allocator.scratch.1, .constant index] []).resolveReturned_grows rest
      rw [others] at further
      have plain : ∀ x slot, (.register (.str x), slot) ∈ seats → ¬ IsScratch x := by
        intro x slot membership
        have listed : .register (.str x) ∈ rest := same ▸ List.mem_map_of_mem membership
        rcases later _ listed with ⟨_, ⟨⟩, plain⟩ | ⟨_, ⟨⟩⟩
        exact plain
      refine ⟨d, (.constant index, c.allocator.scratch.1) :: seats, by rw [List.map_cons, same], ?_,
        ?_, seated.constant wf free further plain index⟩
      · simp only [resolveReturned, others]
        rfl
      · rw [lines]
        exact List.append_assoc _ _ _

theorem stem_create_default {locals : Value} {c : Context}
    (created : create (.str defaultSuffix) locals = .ok c) :
    c.allocator.stem = Pattern.occurrence.stem := by
  obtain ⟨p, names, a, read, -, seeded, rfl⟩ := create_eq_ok created
  simp only [suffixPattern, Pattern.parse_defaultSuffix, Except.ok.injEq] at read
  subst read
  have grown := seed_grows { stem := Pattern.occurrence.stem } names
  rw [seeded] at grown
  exact grown.sameGroups.stem

theorem lowerEach_scratchFree {locals : Value} {c : Context}
    (created : create (.str defaultSuffix) locals = .ok c) {items : List Item}
    (plain : ∀ item ∈ items, ∀ x ∈ item.names, ¬ IsScratch x) :
    (c.lowerEach items).allocator.ScratchFree := by
  have wf := (create_seeded created).wellFormed
  have stems := stem_create_default created
  intro x scratch
  rw [lowerEach_stem wf]
  apply lowerEach_group?_eq_none wf
  · obtain ⟨stem, seeded⟩ := (create_seeded created).grows
    rw [group?, seeded.sameGroups.groups]
    rfl
  · intro entry listed _ y named
    rw [stems]
    exact (stem_ne_of_isScratch scratch (plain entry listed y (Item.mem_names_of_index? named))).symm

/-- A return in a function without scratch names loads its constants into different slots, and its last
line then gives back each constant and what each register's slot held before. -/
theorem return_gives_operands {f : Function} (plain : ∀ x ∈ f.names, ¬ IsScratch x) {c : Context}
    (created : create (.str defaultSuffix) f.locals = .ok c) (first rest : List Item)
    {i : Instruction} (listed : f.blocks.flatMap Block.items = first ++ .instruction i :: rest)
    {d : Context} (reached : d.allocator = (c.lowerEach first).allocator)
    (returns : i.opcode? = .ok (some .ret)) (given : i.args ≠ [])
    (returnable : ∀ o ∈ i.args, (∃ x, o = .register (.str x)) ∨ ∃ index, o = .constant index) :
    ∃ seats : List Seat, seats.map Prod.fst = i.args ∧
      (d.lower (.instruction i)).2 = .ok () ∧
      d.emitted (.instruction i) = seats.filterMap Seat.load? ++
        [.code ⟨.ret, seats.map Seat.token, [.int (i.args.length + 1)]⟩] ∧
      (seats.filterMap Seat.target?).Nodup ∧
      (∀ x slot, (.register (.str x), slot) ∈ seats →
        (d.lower (.instruction i)).1.allocator.lookup (.ofText x) = some slot ∧
        ∀ place, d.allocator.peek x = some place → place = slot) ∧
      ∀ {V : Type u} {M : Type v} (I : Interpretation V M) (t : Store Int V M),
        ∃ t', I.runLines t (seats.filterMap Seat.load?) = some (t', []) ∧
          seats.map (fun s => I.token t' s.token) = seats.map (I.seated t) := by
  have named : ∀ item ∈ first ++ .instruction i :: rest, ∀ x ∈ item.names, ¬ IsScratch x := by
    intro item membership x name
    rw [← listed] at membership
    obtain ⟨b, block, within⟩ := List.mem_flatMap.mp membership
    apply plain
    exact List.mem_append_right _ (List.mem_flatMap.mpr ⟨b, block, List.mem_flatMap.mpr
      ⟨item, within, name⟩⟩)
  have wf : d.allocator.WellFormed := by
    rw [reached]
    exact lowerEach_wellFormed (create_seeded created).wellFormed first
  have free : d.allocator.ScratchFree := by
    rw [reached]
    exact lowerEach_scratchFree created fun item membership =>
      named item (List.mem_append_left _ membership)
  have operands : ∀ o ∈ i.args,
      (∃ x, o = .register (.str x) ∧ ¬ IsScratch x) ∨ ∃ index, o = .constant index := by
    intro o membership
    rcases returnable o membership with ⟨x, rfl⟩ | constant
    · exact .inl ⟨x, rfl, named (.instruction i) (by simp) x
        (Instruction.mem_names_of_mem_args membership)⟩
    · exact .inr constant
  obtain ⟨e, seats, same, resolved, lines, seated⟩ := resolveReturned_seats wf free operands
  have lowered : d.lower (.instruction i) = (e.write (returnLine (seats.map Seat.token)), .ok ()) := by
    rw [lower, Instruction.recipe_of_ret returns, perform, resolved]
  have line : returnLine (seats.map Seat.token) =
      .code ⟨.ret, seats.map Seat.token, [.int (i.args.length + 1)]⟩ := by
    cases seats with
    | nil => exact absurd same.symm given
    | cons s others =>
      rw [← same]
      simp [returnLine]
  refine ⟨seats, same, by rw [lowered], ?_, seated.distinct, ?_, ?_⟩
  · apply emitted_eq
    rw [lowered, ← line]
    simp only [write, lines, List.append_assoc]
  · intro x slot membership
    rw [lowered]
    exact ⟨seated.bound x slot membership, fun place => seated.kept x slot place membership⟩
  · intro V M I t
    refine seated.values ?_ I t
    intro s membership
    exact returnable s.1 (same ▸ List.mem_map_of_mem membership)

/-- A return of two constants, of an occurrence of a loop variable that is seen for the first time, of a
register that nothing has written, and of the loop's limit. -/
def mixedReturn : Instruction :=
  { tag := .str "return"
    args := [.constant (.int 1), .register (.str "i_1"), .register (.str "t"), .constant (.int 2),
      .register (.str "n")] }

def limitedEntry : Item :=
  .instruction (.enter "i_0" (.register (.str "n")) (.constant (.int 0)))

/-- A loop up to the declared name, and the return in it. -/
def yielding : Function where
  locals := .list [.str "n"]
  blocks := [{ label := .str "top", items := [limitedEntry, .instruction mixedReturn] }]

theorem return_gives_operands_of_yielding :
    create (.str defaultSuffix) yielding.locals = .ok declaring ∧
      (declaring.lowerEach [limitedEntry]).emitted (.instruction mixedReturn) =
        [.code ⟨.loadk, [.register 5, .constant (.int 1)], []⟩,
          .code ⟨.loadk, [.register 7, .constant (.int 2)], []⟩,
          .code ⟨.ret, [.register 5, .register 4, .register 6, .register 7, .register 2], [.int 6]⟩] ∧
      ∃ seats : List Seat, seats.map Prod.fst = mixedReturn.args ∧
        ∀ (I : Interpretation Int Unit) (t : Store Int Int Unit),
          ∃ t', I.runLines t (seats.filterMap Seat.load?) = some (t', []) ∧
            seats.map (fun s => I.token t' s.token) = seats.map (I.seated t) := by
  have plain : ∀ x ∈ yielding.names, ¬ IsScratch x := by
    have names : yielding.names = ["n", "i_0", "n", "i_1", "t", "n"] := rfl
    rw [names]
    decide
  have returnable : ∀ o ∈ mixedReturn.args,
      (∃ x, o = .register (.str x)) ∨ ∃ index, o = .constant index := by
    simp [mixedReturn]
  obtain ⟨seats, same, -, -, -, -, values⟩ := return_gives_operands plain create_declaring
    [limitedEntry] [] (i := mixedReturn) rfl rfl rfl (by simp [mixedReturn]) returnable
  exact ⟨create_declaring, rfl, seats, same, values⟩

end Context

end BlockAsm
