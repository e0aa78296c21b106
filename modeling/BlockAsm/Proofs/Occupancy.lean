import BlockAsm.Proofs.LoopBindings
import BlockAsm.Proofs.LoopEntry

/-!
The registers in use. In every context that lowering leads to, the occupied slots are those below the
number of registers used. So a line that is written addresses registers in use only, and a name that is
bound on first sight takes the next register, unless its stem has a group. Nothing but an entry to a
loop moves a name that is bound.
-/

namespace BlockAsm

namespace Line

def registers : Line → List Int
  | .code c => c.tokens.filterMap fun
    | .register slot => some slot
    | _ => none
  | _ => []

theorem mem_registers_code {c : Code} {slot : Int} :
    slot ∈ (code c).registers ↔ .register slot ∈ c.tokens := by
  rw [registers, List.mem_filterMap]
  constructor
  · rintro ⟨t, membership, found⟩
    cases t <;> cases found
    exact membership
  · exact fun membership => ⟨_, membership, rfl⟩

end Line

namespace Allocator

theorem WellFormed.used_eq {a : Allocator} (wf : a.WellFormed) : a.used = a.nextFree := by
  have least := a.nextFree_nonneg
  unfold used
  split
  · rename_i none
    by_contra gap
    have first : (0 : Int) ∈ a.occupied := mem_occupied_of_lt_nextFree (Int.le_refl 0) (by omega)
    simp [none] at first
  · rename_i s rest some
    have highest : (s :: rest).max? = .some (rest.foldl max s) := List.max?_cons'
    rw [← some, List.max?_eq_some_iff] at highest
    obtain ⟨held, above⟩ := highest
    have bounds := (wf.mem_occupied_iff _).mp held
    have last := above (a.nextFree - 1) ((wf.mem_occupied_iff _).mpr (by omega))
    omega

/-- The occupied slots are the registers in use. -/
theorem WellFormed.mem_occupied_iff_used {a : Allocator} (wf : a.WellFormed) (slot : Int) :
    slot ∈ a.occupied ↔ 0 ≤ slot ∧ slot < a.used := by
  rw [wf.used_eq]
  exact wf.mem_occupied_iff slot

theorem mem_occupied_place {a : Allocator} (name : String) {slot : Int} (held : slot ∈ a.occupied) :
    slot ∈ (a.place name).2.occupied := by
  cases known : a.lookup (.ofText name) with
  | some other => rwa [place_of_lookup known]
  | none =>
    rw [place_of_unbound known]
    exact (mem_occupied_bind ..).mpr (.inr held)

theorem Grows.occupied {a b : Allocator} (grown : Grows a b) {slot : Int} (held : slot ∈ a.occupied) :
    slot ∈ b.occupied :=
  grown.keeps (P := fun c => slot ∈ c.occupied) held (fun _ name kept => mem_occupied_place name kept)
    fun _ _ kept => kept

theorem mem_occupied_gather {stem : String} {range names : List Name} {a : Allocator}
    {place slot : Int} (held : slot ∈ a.occupied) :
    slot ∈ (a.gather stem range place names).1.occupied := by
  induction names generalizing a with
  | nil => exact held
  | cons n rest ih =>
    unfold gather
    split
    · exact ih held
    · split
      · exact held
      · split
        · exact ih (mem_occupied_force held)
        · exact ih held

/-- Laying out a loop frees no slot, whether it succeeds or not. -/
theorem mem_occupied_layOut {a : Allocator} (index limit step : Operand) {slot : Int}
    (held : slot ∈ a.occupied) : slot ∈ (a.layOut index limit step).1.occupied := by
  have reserved : ∀ start length, slot ∈ (a.reserve start length).occupied :=
    fun start length => (mem_occupied_reserve ..).mpr (.inl held)
  rcases a.layOut_fst_cases index limit step with same | ⟨name, range, same | same⟩
  · rwa [same]
  · rw [same]
    exact reserved _ _
  · rw [same]
    exact mem_occupied_gather (mem_occupied_seated name limit step (reserved _ _))

theorem WellFormed.resolve_occupied {a b : Allocator} (wf : a.WellFormed) {o : Operand} {slot : Int}
    (resolved : a.resolve o = .ok (.register slot, b)) : slot ∈ b.occupied := by
  cases o with
  | constant index => cases resolved
  | upvalue index => cases resolved
  | other v => simp [resolve, refuse] at resolved
  | register v =>
    have grown := resolve_grows resolved
    simp only [resolve] at resolved
    split at resolved
    · rename_i found
      cases resolved
      obtain ⟨x, rfl, placed⟩ := wf.placeValue_eq_ok found
      have bound := a.lookup_place_self x
      rw [placed] at bound
      exact (wf.grows grown).bound bound
    · cases resolved

theorem WellFormed.resolveAll_occupied {a b : Allocator} (wf : a.WellFormed) {operands : List Operand}
    {tokens : List Token} (resolved : a.resolveAll operands = (b, .ok tokens)) {slot : Int}
    (membership : .register slot ∈ tokens) : slot ∈ b.occupied := by
  induction operands generalizing a tokens with
  | nil =>
    cases resolved
    cases membership
  | cons o rest ih =>
    unfold resolveAll at resolved
    split at resolved
    · cases resolved
    · rename_i t e first
      have further := e.resolveAll_grows rest
      split at resolved
      · rename_i ts others
        cases resolved
        rw [others] at further
        rcases List.mem_cons.mp membership with rfl | later
        · exact further.occupied (wf.resolve_occupied first)
        · exact ih (wf.grows (resolve_grows first)) others later
      · cases resolved

theorem WellFormed.scratch_occupied {a : Allocator} (wf : a.WellFormed) :
    a.scratch.1 ∈ a.scratch.2.occupied :=
  wf.scratch.bound a.lookup_scratch

/-- A name without a slot is bound: to the last slot of its stem's group or, if its stem has none, to
the first slot that is not in use. -/
inductive Binds (a : Allocator) : Allocator → Prop
  | first (x : String) (count : Nat) : a.lookup (.ofText x) = none →
      Binds a { a.bind (.ofText x) ((a.bodySlot? x).getD a.used) with scratchCount := count }

theorem WellFormed.place_eq {a : Allocator} (wf : a.WellFormed) {x : String}
    (unbound : a.lookup (.ofText x) = none) :
    a.place x = ((a.bodySlot? x).getD a.used, a.bind (.ofText x) ((a.bodySlot? x).getD a.used)) := by
  rw [wf.used_eq]
  exact place_of_unbound unbound

/-- An allocator grows by binding names that have no slot, and in no other way. -/
theorem WellFormed.binds_of_grows {a b : Allocator} (wf : a.WellFormed) (grown : Grows a b) :
    Relation.ReflTransGen Binds a b := by
  induction grown with
  | refl => exact .refl
  | @place b name earlier ih =>
    cases known : b.lookup (.ofText name) with
    | some slot => rwa [place_of_lookup known]
    | none =>
      rw [(wf.grows earlier).place_eq known]
      exact ih.tail (.first name b.scratchCount known)
  | @scratch b earlier ih =>
    obtain ⟨count, placed⟩ := b.scratch_eq
    have unbound := b.lookup_nextScratch
    rw [placed, ((wf.grows earlier).withCount count).place_eq unbound]
    exact ih.tail (.first b.nextScratch count unbound)

theorem WellFormed.resolve_unbound {a : Allocator} (wf : a.WellFormed) {x : String}
    (unbound : a.lookup (.ofText x) = none) (ungrouped : a.group? (a.stem x) = none) :
    a.resolve (.register (.str x)) = .ok (.register a.used, a.bind (.ofText x) a.used) := by
  have placed := wf.place_eq unbound
  simp only [bodySlot?, ungrouped, Option.map_none, Option.getD_none] at placed
  simp only [resolve, placeValue_str, placed]

end Allocator

namespace Context

open Allocator

/-- A copy addresses its target and the register that the value comes from. -/
theorem mem_registers_copyLine {o : Operand} {target slot : Int} {home : Option Token} {copy : Copy}
    (asked : copy ∈ copyTo o target home) (membership : slot ∈ (copyLine copy).registers) :
    slot = target ∨ home = some (.register slot) := by
  have made : copy.target = target ∧ some copy.token = home := by
    unfold copyTo at asked
    split at asked
    · cases asked
    · split at asked
      · cases asked
      · rw [List.mem_singleton.mp asked]
        exact ⟨rfl, rfl⟩
    · rw [List.mem_singleton.mp asked]
      exact ⟨rfl, rfl⟩
  have tokens : .register slot ∈ [.register copy.target, copy.token] := by
    unfold copyLine at membership
    split at membership <;> exact Line.mem_registers_code.mp membership
  rw [← made.1, ← made.2]
  simpa [eq_comm] using tokens

theorem lines_enterLoop_of_error {c d : Context} {index limit step : Operand} {target : Value}
    {f : Failure} (failed : c.enterLoop index limit step target = (d, .error f)) :
    d.lines = c.lines := by
  simp only [enterLoop] at failed
  split at failed
  · cases failed
    rfl
  · cases failed

def Addressed (c : Context) : Prop :=
  ∀ line ∈ c.lines, ∀ slot ∈ line.registers, slot ∈ c.allocator.occupied

namespace Addressed

variable {c : Context}

theorem withAllocator (addressed : c.Addressed) {a : Allocator}
    (kept : ∀ slot ∈ c.allocator.occupied, slot ∈ a.occupied) : (c.withAllocator a).Addressed :=
  fun line written slot membership => kept slot (addressed line written slot membership)

theorem write (addressed : c.Addressed) {line : Line}
    (used : ∀ slot ∈ line.registers, slot ∈ c.allocator.occupied) : (c.write line).Addressed := by
  intro other written
  rcases List.mem_append.mp written with before | last
  · exact addressed other before
  · rw [List.mem_singleton.mp last]
    exact used

theorem writeCode (addressed : c.Addressed) {opcode : Opcode} {tokens : List Token}
    {immediates : List Value}
    (used : ∀ slot, .register slot ∈ tokens → slot ∈ c.allocator.occupied) :
    (c.writeCode opcode tokens immediates).Addressed :=
  addressed.write fun slot membership => used slot (Line.mem_registers_code.mp membership)

theorem returnStep {d : Context} {o : Operand} {t : Token} (addressed : c.Addressed)
    (wf : c.allocator.WellFormed) (step : c.returnStep o = .ok (t, d)) :
    d.Addressed ∧ ∀ slot, t = .register slot → slot ∈ d.allocator.occupied := by
  by_cases constant : ∃ index, o = .constant index
  · obtain ⟨index, rfl⟩ := constant
    cases step
    have loaded := wf.scratch_occupied
    refine ⟨?_, ?_⟩
    · apply (addressed.withAllocator fun slot => (Grows.scratch .refl).occupied).writeCode
      intro slot membership
      rcases List.mem_cons.mp membership with same | rest
      · cases same
        exact loaded
      · simp at rest
    · rintro slot same
      cases same
      exact loaded
  · obtain ⟨a, resolved, rfl⟩ := returnStep_eq_ok (not_exists.mp constant) step
    refine ⟨addressed.withAllocator fun slot => (resolve_grows resolved).occupied, ?_⟩
    rintro slot rfl
    exact wf.resolve_occupied resolved

theorem resolveReturned (operands : List Operand) (addressed : c.Addressed)
    (wf : c.allocator.WellFormed) :
    (c.resolveReturned operands).1.Addressed ∧
      ∀ tokens slot, (c.resolveReturned operands).2 = .ok tokens → .register slot ∈ tokens →
        slot ∈ (c.resolveReturned operands).1.allocator.occupied := by
  induction operands generalizing c with
  | nil =>
    refine ⟨addressed, ?_⟩
    intro tokens slot resolved membership
    cases resolved
    cases membership
  | cons o rest ih =>
    rw [resolveReturned_cons]
    split
    · exact ⟨addressed, fun tokens slot resolved => nomatch resolved⟩
    · rename_i t d step
      obtain ⟨addressed', inUse⟩ := addressed.returnStep wf step
      obtain ⟨last, others⟩ := ih addressed' (wf.grows (returnStep_grows step))
      refine ⟨last, ?_⟩
      intro tokens slot same membership
      obtain ⟨ts, resolved, rfl⟩ := Except.map_eq_ok.mp same
      rcases List.mem_cons.mp membership with here | later
      · exact (d.resolveReturned_grows rest).occupied (inUse slot here.symm)
      · exact others ts slot resolved later

/-- The lines that enter a loop address its group and the places where its control values live. -/
theorem enterLoop (addressed : c.Addressed) (wf : c.allocator.WellFormed)
    (index limit step : Operand) (target : Value) :
    (c.enterLoop index limit step target).1.Addressed := by
  have kept : ∀ slot ∈ c.allocator.occupied,
      slot ∈ (c.enterLoop index limit step target).1.allocator.occupied := by
    intro slot held
    rw [allocator_enterLoop]
    exact mem_occupied_layOut index limit step held
  by_cases ready : (∃ s, index = .register (.str s)) ∧ limit.Resolvable ∧ step.Resolvable
  · obtain ⟨⟨s, rfl⟩, hl, hs⟩ := ready
    obtain ⟨d, entered, lines, wfd, -, groups⟩ := enterLoop_of_resolvable wf s hl hs target
    rw [entered] at kept ⊢
    have based : d.allocator.group? (c.allocator.stem s) = some (c.allocator.entrySlot s) := by
      rw [group?_of_groups_set groups, if_pos rfl]
    have inGroup : ∀ slot, c.allocator.entrySlot s ≤ slot → slot ≤ c.allocator.entrySlot s + 3 →
        slot ∈ d.allocator.occupied := fun slot => wfd.grouped based
    intro line written slot membership
    rw [lines, entryLines] at written
    rcases List.mem_append.mp written with before | entry
    · exact kept slot (addressed line before slot membership)
    · rcases List.mem_append.mp entry with copied | jump
      · obtain ⟨copy, asked, rfl⟩ := List.mem_map.mp copied
        obtain ⟨⟨o, place⟩, control, copy_eq⟩ := List.mem_flatMap.mp asked
        have near : c.allocator.entrySlot s ≤ place ∧ place ≤ c.allocator.entrySlot s + 3 := by
          simp only [controls, List.mem_cons, Prod.mk.injEq, List.not_mem_nil, or_false] at control
          omega
        rcases mem_registers_copyLine copy_eq membership with rfl | lives
        · exact inGroup slot near.1 near.2
        · exact kept slot (wf.home_occupied lives)
      · rw [List.mem_singleton.mp jump, Line.mem_registers_code, List.mem_singleton] at membership
        cases membership
        exact inGroup _ (by omega) (by omega)
  · obtain ⟨d, f, failed, -⟩ := enterLoop_of_not_resolvable wf ready target
    rw [failed] at kept ⊢
    intro line written slot membership
    rw [lines_enterLoop_of_error failed] at written
    exact kept slot (addressed line written slot membership)

theorem stepLoop (addressed : c.Addressed) (wf : c.allocator.WellFormed) (index : Operand)
    (body : Value) : (c.stepLoop index body).1.Addressed := by
  unfold Context.stepLoop
  split
  · exact addressed
  · rename_i base based
    apply addressed.writeCode
    intro slot membership
    cases List.mem_singleton.mp membership
    cases index with
    | register v =>
      cases v with
      | str x =>
        simp only [groupBase, nameText, Except.map, Except.ok.injEq] at based
        exact wf.grouped based (by omega) (by omega)
      | _ => cases based
    | _ => cases based
  · split
    · exact addressed
    · rename_i t a resolved
      apply (addressed.withAllocator fun slot => (resolve_grows resolved).occupied).writeCode
      intro slot membership
      cases List.mem_singleton.mp membership
      exact wf.resolve_occupied resolved

theorem perform (addressed : c.Addressed) (wf : c.allocator.WellFormed) (r : Recipe) :
    (c.perform r).1.Addressed := by
  cases r with
  | line o operands immediates =>
    have grown := c.allocator.resolveAll_grows operands
    simp only [Context.perform]
    split <;> rename_i a _ resolved <;> rw [resolved] at grown
    · apply (addressed.withAllocator fun slot => grown.occupied).writeCode
      intro slot membership
      exact wf.resolveAll_occupied resolved membership
    · exact addressed.withAllocator fun slot => grown.occupied
  | abort operands why =>
    have grown := c.allocator.resolveAll_grows operands
    simp only [Context.perform]
    split <;> rename_i a _ resolved <;> rw [resolved] at grown <;>
      exact addressed.withAllocator fun slot => grown.occupied
  | giveBack operands =>
    obtain ⟨last, inUse⟩ := addressed.resolveReturned operands wf
    simp only [Context.perform]
    split <;> rename_i d _ resolved <;> rw [resolved] at last inUse
    · rename_i tokens
      apply last.write
      intro slot membership
      apply inUse tokens slot rfl
      cases tokens with
      | nil => cases membership
      | cons t ts => exact Line.mem_registers_code.mp membership
    · exact last
  | enterLoop index limit step target => exact addressed.enterLoop wf index limit step target
  | stepLoop index body => exact addressed.stepLoop wf index body
  | verbatim payload =>
    apply addressed.write
    intro slot membership
    cases membership

theorem lower (addressed : c.Addressed) (wf : c.allocator.WellFormed) (item : Item) :
    (c.lower item).1.Addressed := by
  cases item with
  | instruction i => exact addressed.perform wf i.recipe
  | other v => exact addressed

theorem lowerEach (addressed : c.Addressed) (wf : c.allocator.WellFormed) (items : List Item) :
    (c.lowerEach items).Addressed := by
  induction items generalizing c with
  | nil => exact addressed
  | cons item items ih => exact ih (addressed.lower wf item) (lower_groups wf item).1

end Addressed

theorem Seeded.addressed {c : Context} (seeded : c.Seeded) : c.Addressed := by
  cases seeded with
  | names stem bound => exact fun line written => nomatch written

/-- What the slots of a context have in common. -/
structure Orderly (c : Context) : Prop where
  occupied : ∀ slot, slot ∈ c.allocator.occupied ↔ 0 ≤ slot ∧ slot < c.allocator.used
  bound : ∀ name slot, c.allocator.lookup name = some slot → slot ∈ c.allocator.occupied
  grouped : ∀ stem base slot, c.allocator.group? stem = some base → base ≤ slot → slot ≤ base + 3 →
    slot ∈ c.allocator.occupied
  /-- No name is bound to a slot that only a reservation holds. -/
  reserved : ∀ name slot, c.allocator.lookup name = some slot → slot ∉ c.allocator.placeholders
  addressed : ∀ line ∈ c.lines, ∀ slot ∈ line.registers, 0 ≤ slot ∧ slot < c.allocator.used

theorem orderly_of_addressed {c : Context} (wf : c.allocator.WellFormed) (addressed : c.Addressed) :
    c.Orderly where
  occupied := wf.mem_occupied_iff_used
  bound _ _ := wf.bound
  grouped _ _ _ := wf.grouped
  reserved _ _ := wf.reserved
  addressed line written slot membership :=
    (wf.mem_occupied_iff_used slot).mp (addressed line written slot membership)

/-- Whatever is lowered, registers in use are the occupied slots, a first binding takes the next one,
and names that are bound stay where they are until a loop is entered. -/
theorem registers_in_use {c : Context} (seeded : c.Seeded) (items : List Item) :
    (c.lowerEach items).Orderly ∧
      (∀ x, (c.lowerEach items).allocator.lookup (.ofText x) = none →
        (c.lowerEach items).allocator.group? ((c.lowerEach items).allocator.stem x) = none →
        (c.lowerEach items).allocator.resolve (.register (.str x)) =
          .ok (.register (c.lowerEach items).allocator.used, (c.lowerEach items).allocator.bind
            (.ofText x) (c.lowerEach items).allocator.used)) ∧
      ∀ item, item.opcode? ≠ some .forprep →
        Relation.ReflTransGen Binds (c.lowerEach items).allocator
          ((c.lowerEach items).lower item).1.allocator ∧
        ∀ name slot, (c.lowerEach items).allocator.lookup name = some slot →
          ((c.lowerEach items).lower item).1.allocator.lookup name = some slot := by
  have wf := lowerEach_wellFormed seeded.wellFormed items
  have addressed := seeded.addressed.lowerEach seeded.wellFormed items
  refine ⟨orderly_of_addressed wf addressed, fun x => wf.resolve_unbound, ?_⟩
  intro item other
  have grown := ((c.lowerEach items).lower_cases item).resolve_right
    fun ⟨_, _, _, _, _, entering, _⟩ => other entering
  exact ⟨wf.binds_of_grows grown, fun name slot => grown.lookup⟩

def declaring : Context :=
  { allocator := (Allocator.seed { stem := Pattern.occurrence.stem } [.str "n"]).1 }

theorem create_declaring : create (.str defaultSuffix) (.list [.str "n"]) = .ok declaring := by
  simp only [create, suffixPattern, Pattern.parse_defaultSuffix]
  rfl

/-- A loop up to the declared name, entered after an instruction that fails. -/
def boundedLoop : List Item :=
  [.instruction { tag := .str "move" },
    .instruction (.enter "i" (.register (.str "n")) (.constant (.int 1)))]

theorem registers_in_use_after_boundedLoop :
    declaring.Seeded ∧ (declaring.lowerEach boundedLoop).Orderly ∧
      (declaring.lowerEach boundedLoop).allocator.used = 5 ∧
      (declaring.lowerEach boundedLoop).allocator.lookup (.ofText "n") = some 2 ∧
      (∃ a, (declaring.lowerEach boundedLoop).allocator.resolve (.register (.str "t")) =
        .ok (.register 5, a)) ∧
      ((declaring.lowerEach boundedLoop).lower (.instruction (.load "t" 0))).1.allocator.lookup
        (.ofText "n") = some 2 := by
  have seeded := create_seeded create_declaring
  obtain ⟨orderly, next, kept⟩ := registers_in_use seeded boundedLoop
  have limit : (declaring.lowerEach boundedLoop).allocator.lookup (.ofText "n") = some 2 := by decide
  have other : (Item.instruction (.load "t" 0)).opcode? ≠ some .forprep := by decide
  exact ⟨seeded, orderly, by decide, limit, ⟨_, next "t" (by decide) (by decide)⟩,
    (kept _ other).2 _ _ limit⟩

end Context

end BlockAsm
