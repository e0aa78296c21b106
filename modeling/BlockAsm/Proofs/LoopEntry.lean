import BlockAsm.Proofs.Layout

/-!
Entering a loop. The control values are copied to the first three slots of the group one after the
other, index, limit, step. The slots are filled rightly unless the step lives where the limit goes and
the limit has to be brought there: then the limit's copy comes first and the step gets the limit's
value. Nothing else can go wrong, because an index that is moved goes to a slot that held nothing.
-/

namespace BlockAsm

universe u v

open Allocator

variable {V : Type u} {M : Type v}

namespace Store

/-- Copies a value to a slot, if it lives somewhere. -/
def bring (I : Interpretation V M) (s : Store Int V M) (target : Int) : Option Token → Store Int V M
  | none => s
  | some t => s.put target (I.token s t, s.memory)

variable (I : Interpretation V M) (s : Store Int V M)

@[simp] theorem memory_bring (target : Int) (home : Option Token) :
    (s.bring I target home).memory = s.memory := by
  cases home <;> rfl

theorem cells_bring_self (target : Int) (t : Token) :
    (s.bring I target (some t)).cells target = I.token s t := by
  simp [bring]

theorem cells_bring_of_ne {target other : Int} (home : Option Token) (h : other ≠ target) :
    (s.bring I target home).cells other = s.cells other := by
  cases home with
  | none => rfl
  | some t => exact cells_put_of_ne s _ h

theorem token_bring_of_ne {target : Int} (home : Option Token) {t : Token}
    (h : t ≠ .register target) : I.token (s.bring I target home) t = I.token s t := by
  cases t with
  | register slot => exact cells_bring_of_ne I s home fun same => h (same ▸ rfl)
  | constant index => rfl
  | upvalue index => simp only [Interpretation.token, memory_bring]

theorem bring_in_place (target : Int) : s.bring I target (some (.register target)) = s :=
  put_self s target

end Store

namespace LoopEntry

/-- The meaning of a move: its operand's value, and nothing happens to the memory. -/
def Moves (I : Interpretation V M) : Prop := ∀ value memory, I.apply .move [] [value] memory = (value, memory)

variable {I : Interpretation V M}

theorem runLine_move (moves : Moves I) (s : Store Int V M) (slot : Int) (t : Token) :
    I.runLine s (.code ⟨.move, [.register slot, t], []⟩) =
      some (s.put slot (I.token s t, s.memory), []) := by
  simp [Interpretation.runLine, Opcode.role?, moves _ _]

/-- A copy brings the value from where it lives, also if it is in place and no line is written. -/
theorem runLines_copyTo (moves : Moves I) (a : Allocator) (s : Store Int V M) (o : Operand)
    (target : Int) : I.runLines s ((copyTo o target (a.home o)).map Context.copyLine) =
      some (s.bring I target (a.home o), []) := by
  cases o with
  | constant index => exact I.runLines_singleton (I.runLine_load s target index)
  | upvalue index => exact I.runLines_singleton (runLine_move moves s target (.upvalue index))
  | other v => rfl
  | register name =>
    cases name with
    | str x =>
      cases peeked : a.peek x with
      | none =>
        simp only [home, peeked, Option.map_none, copyTo]
        rfl
      | some slot =>
        simp only [home, peeked, Option.map_some, copyTo]
        split
        · rename_i same
          rw [same, Store.bring_in_place]
          rfl
        · exact I.runLines_singleton (runLine_move moves s target (.register slot))
    | _ => rfl

def copied (I : Interpretation V M) (a : Allocator) (index : String) (limit step : Operand)
    (s : Store Int V M) : Store Int V M :=
  ((s.bring I (a.entrySlot index) (a.home (.register (.str index)))).bring I
    (a.entrySlot index + 1) (a.home limit)).bring I (a.entrySlot index + 2) (a.home step)

theorem runLines_controlCopies (moves : Moves I) (a : Allocator) (index : String)
    (limit step : Operand) (s : Store Int V M) :
    I.runLines s ((a.controlCopies (a.controls index limit step)).map Context.copyLine) =
      some (copied I a index limit step s, []) := by
  simp only [controlCopies, controls, List.flatMap_cons, List.flatMap_nil, List.append_nil,
    List.map_append]
  exact I.runLines_append (runLines_copyTo moves a s _ _)
    (I.runLines_append (runLines_copyTo moves a _ _ _) (runLines_copyTo moves a _ _ _))

/-- The copy of the index disturbs no value: a bound index is in place, and an unbound one goes to a
slot in which no value lives. -/
theorem token_bring_index {a : Allocator} (wf : a.WellFormed) (index : String) {o : Operand}
    {t : Token} (lives : a.home o = some t) (s : Store Int V M) :
    I.token (s.bring I (a.entrySlot index) (a.home (.register (.str index)))) t = I.token s t := by
  cases known : a.lookup (.ofText index) with
  | some slot =>
    have base : a.entrySlot index = slot := by simp [entrySlot, known]
    have home : a.home (.register (.str index)) = some (.register slot) := by
      simp [Allocator.home, peek, known]
    rw [base, home, Store.bring_in_place]
  | none =>
    have base : a.entrySlot index = a.nextFree := by simp [entrySlot, known]
    apply Store.token_bring_of_ne
    intro same
    rw [same, base] at lives
    exact a.nextFree_notMem (wf.home_occupied lives)

/-- Each control value that lives somewhere is in its slot afterwards. -/
def Filled (I : Interpretation V M) (a : Allocator) (controls : List (Operand × Int))
    (before after : Store Int V M) : Prop :=
  ∀ p ∈ controls, ∀ t, a.home p.1 = some t → after.cells p.2 = I.token before t

/-- The step lives in the slot of the limit, and the limit lives elsewhere. -/
def Crossed (a : Allocator) (index : String) (limit step : Operand) : Prop :=
  a.home step = some (.register (a.entrySlot index + 1)) ∧
    ∃ t, a.home limit = some t ∧ t ≠ .register (a.entrySlot index + 1)

theorem copied_index {a : Allocator} {index : String} {limit step : Operand}
    {t : Token} (lives : a.home (.register (.str index)) = some t) (s : Store Int V M) :
    (copied I a index limit step s).cells (a.entrySlot index) = I.token s t := by
  rw [copied, Store.cells_bring_of_ne _ _ _ (by omega), Store.cells_bring_of_ne _ _ _ (by omega),
    lives, Store.cells_bring_self]

theorem copied_limit {a : Allocator} (wf : a.WellFormed) {index : String} {limit step : Operand}
    {t : Token} (lives : a.home limit = some t) (s : Store Int V M) :
    (copied I a index limit step s).cells (a.entrySlot index + 1) = I.token s t := by
  rw [copied, Store.cells_bring_of_ne _ _ _ (by omega), lives, Store.cells_bring_self,
    token_bring_index wf index lives]

theorem copied_step {a : Allocator} (wf : a.WellFormed) {index : String} {limit step : Operand}
    (apart : ¬ Crossed a index limit step) {t : Token} (lives : a.home step = some t)
    (s : Store Int V M) :
    (copied I a index limit step s).cells (a.entrySlot index + 2) = I.token s t := by
  rw [copied, lives, Store.cells_bring_self]
  by_cases crossed : t = .register (a.entrySlot index + 1)
  · -- The step lives in the slot of the limit, so no copy of the limit has changed that slot.
    cases limited : a.home limit with
    | none => exact token_bring_index wf index lives s
    | some l =>
      have inPlace : l = .register (a.entrySlot index + 1) := by
        by_contra elsewhere
        exact apart ⟨crossed ▸ lives, l, limited, elsewhere⟩
      rw [inPlace, Store.bring_in_place, token_bring_index wf index lives]
  · rw [Store.token_bring_of_ne _ _ _ crossed, token_bring_index wf index lives]

theorem copied_step_of_crossed {a : Allocator} (wf : a.WellFormed) {index : String}
    {limit step : Operand} {t : Token}
    (lives : a.home step = some (.register (a.entrySlot index + 1)))
    (limited : a.home limit = some t) (s : Store Int V M) :
    (copied I a index limit step s).cells (a.entrySlot index + 2) = I.token s t := by
  rw [copied, lives, Store.cells_bring_self, limited, Interpretation.token_register,
    Store.cells_bring_self, token_bring_index wf index limited]

theorem filled_of_not_crossed {a : Allocator} (wf : a.WellFormed) {index : String}
    {limit step : Operand} (apart : ¬ Crossed a index limit step) (s : Store Int V M) :
    Filled I a (a.controls index limit step) s (copied I a index limit step s) := by
  intro p hp t lives
  simp only [controls, List.mem_cons, List.not_mem_nil, or_false] at hp
  rcases hp with rfl | rfl | rfl
  · exact copied_index lives s
  · exact copied_limit wf lives s
  · exact copied_step wf apart lives s

theorem exists_cell_ne [Nontrivial V] [Nonempty M] (I : Interpretation V M) {slot : Int} {t : Token}
    (elsewhere : t ≠ .register slot) : ∃ s : Store Int V M, s.cells slot ≠ I.token s t := by
  obtain ⟨memory⟩ := ‹Nonempty M›
  obtain ⟨first, second, different⟩ := exists_pair_ne V
  cases t with
  | register other =>
    have apart : other ≠ slot := fun same => elsewhere (same ▸ rfl)
    refine ⟨⟨Function.update (fun _ => second) slot first, memory⟩, ?_⟩
    simpa [Interpretation.token, Function.update_of_ne apart] using different
  | constant index =>
    obtain ⟨value, other⟩ := exists_ne (I.pool index)
    exact ⟨⟨fun _ => value, memory⟩, other⟩
  | upvalue index =>
    obtain ⟨value, other⟩ := exists_ne (I.upvalue index memory)
    exact ⟨⟨fun _ => value, memory⟩, other⟩

theorem not_filled_of_crossed [Nontrivial V] [Nonempty M] {a : Allocator} (wf : a.WellFormed)
    {index : String} {limit step : Operand} (crossed : Crossed a index limit step) :
    ∃ s : Store Int V M,
      ¬ Filled I a (a.controls index limit step) s (copied I a index limit step s) := by
  obtain ⟨lives, t, limited, elsewhere⟩ := crossed
  obtain ⟨s, different⟩ := exists_cell_ne I elsewhere
  refine ⟨s, fun filled => different ?_⟩
  have expected := filled (step, a.entrySlot index + 2) (by simp [controls]) _ lives
  rw [copied_step_of_crossed wf lives limited] at expected
  exact expected.symm

/-- Loop entries fill the index's and the limit's slot always, and all three slots for every content
of the slots unless step and limit cross. -/
theorem entry_fills_controls_iff [Nontrivial V] [Nonempty M] (moves : Moves I) {c : Context}
    (reached : c.allocator.Reachable) {i : Instruction} {fields : Fields} {index : String}
    {limit step : Operand} {rest : List Operand} (tagged : i.opcode? = .ok (some .forprep))
    (object : i.metadata = .object fields)
    (named : Instruction.fieldOr fields "target" "loop" .null ≠ .null)
    (given : i.args = .register (.str index) :: limit :: step :: rest)
    (hl : limit.Resolvable) (hs : step.Resolvable) :
    ∃ d copies, c.lower (.instruction i) = (d, .ok ()) ∧
      d.lines = c.lines ++ copies ++ [.code ⟨.forprep, [.register (c.allocator.entrySlot index)],
        [Instruction.fieldOr fields "target" "loop" .null]⟩] ∧
      (∀ s, ∃ t, I.runLines s copies = some (t, []) ∧
        Filled I c.allocator ((c.allocator.controls index limit step).take 2) s t) ∧
      ((∀ s t, I.runLines s copies = some (t, []) →
          Filled I c.allocator (c.allocator.controls index limit step) s t) ↔
        ¬ Crossed c.allocator index limit step) := by
  have wf := reached.wellFormed
  have recipe := Instruction.recipe_of_forprep tagged object named given trivial hl hs
  obtain ⟨d, entered, lines, -⟩ := Context.enterLoop_of_resolvable wf index hl hs
    (Instruction.fieldOr fields "target" "loop" .null)
  have ran := runLines_controlCopies (I := I) moves c.allocator index limit step
  refine ⟨d, (c.allocator.controlCopies (c.allocator.controls index limit step)).map
    Context.copyLine, ?_, ?_, ?_, ?_⟩
  · rw [Context.lower, recipe, Context.perform, entered]
  · rw [lines, Context.entryLines, List.append_assoc]
  · intro s
    refine ⟨_, ran s, ?_⟩
    intro p hp t lives
    simp only [controls, List.take_succ_cons, List.take_zero, List.mem_cons, List.not_mem_nil,
      or_false] at hp
    rcases hp with rfl | rfl
    · exact copied_index lives s
    · exact copied_limit wf lives s
  · constructor
    · intro filled crossed
      obtain ⟨s, wrong⟩ := not_filled_of_crossed (I := I) wf crossed
      exact wrong (filled s _ (ran s))
    · intro apart s t result
      rw [ran s] at result
      cases result
      exact filled_of_not_crossed wf apart s

end LoopEntry

namespace Instruction

def load (name : String) (index : Int) : Instruction :=
  { tag := .str "const", dest := some (.register (.str name)), args := [.constant (.int index)] }

def enter (index : String) (limit step : Operand) : Instruction :=
  { tag := .str "for_prep", args := [.register (.str index), limit, step],
    metadata := .object [("target", .str "exit")] }

end Instruction

/-- Numbers for values; every opcode passes its first operand on. -/
def Interpretation.passing : Interpretation Int Unit where
  pool index := match index with
    | .int n => n
    | _ => 0
  upvalue _ _ := 0
  apply _ _ values memory := (values.headD 0, memory)
  load_pool _ _ := rfl

namespace LoopEntry

/-- A fresh context in which two names were loaded, the index and then the step. -/
def indexAndStep : Context :=
  Context.fresh.lowerEach [.instruction (.load "i" 0), .instruction (.load "s" 1)]

theorem indexAndStep_reachable : indexAndStep.allocator.Reachable :=
  .lower _ (.lower _ (.fresh Context.fresh_seeded))

theorem entry_fills_controls_iff_at_crossing :
    indexAndStep.allocator.Reachable ∧ ∃ d copies,
      indexAndStep.lower (.instruction (.enter "i" (.constant (.int 2)) (.register (.str "s")))) =
        (d, .ok ()) ∧
      d.lines = indexAndStep.lines ++ copies ++
        [.code ⟨.forprep, [.register (indexAndStep.allocator.entrySlot "i")], [.str "exit"]⟩] ∧
      (∀ s, ∃ t, Interpretation.passing.runLines s copies = some (t, []) ∧
        Filled Interpretation.passing indexAndStep.allocator
          ((indexAndStep.allocator.controls "i" (.constant (.int 2)) (.register (.str "s"))).take 2)
          s t) ∧
      ((∀ s t, Interpretation.passing.runLines s copies = some (t, []) →
          Filled Interpretation.passing indexAndStep.allocator
            (indexAndStep.allocator.controls "i" (.constant (.int 2)) (.register (.str "s"))) s t) ↔
        ¬ Crossed indexAndStep.allocator "i" (.constant (.int 2)) (.register (.str "s"))) := by
  have given : (Instruction.enter "i" (.constant (.int 2)) (.register (.str "s"))).args =
      [.register (.str "i"), .constant (.int 2), .register (.str "s")] := rfl
  have object : (Instruction.enter "i" (.constant (.int 2)) (.register (.str "s"))).metadata =
      .object [("target", .str "exit")] := rfl
  have named : Instruction.fieldOr [("target", .str "exit")] "target" "loop" .null ≠ .null := nofun
  exact ⟨indexAndStep_reachable, entry_fills_controls_iff (fun _ _ => rfl) indexAndStep_reachable
    rfl object named given trivial trivial⟩

/-- With the index in slot 0, the step in slot 1 and a constant for the limit, the constant is loaded
into slot 1 before the step is moved on from there. -/
theorem entry_loses_step :
    ∃ (d : Context) (copies : List Line) (s t : Store Int Int Unit),
      indexAndStep.allocator.Reachable ∧
      indexAndStep.lower (.instruction (.enter "i" (.constant (.int 2)) (.register (.str "s")))) =
        (d, .ok ()) ∧
      d.lines = indexAndStep.lines ++ copies ++ [.code ⟨.forprep, [.register 0], [.str "exit"]⟩] ∧
      Interpretation.passing.runLines s copies = some (t, []) ∧
      indexAndStep.allocator.lookup (.ofText "s") = some 1 ∧ s.cells 1 = 1 ∧ t.cells 2 = 2 :=
  ⟨_, [.code ⟨.loadk, [.register 1, .constant (.int 2)], []⟩,
      .code ⟨.move, [.register 2, .register 1], []⟩],
    ⟨fun slot => slot, ()⟩, _, indexAndStep_reachable, rfl, rfl, rfl, rfl, rfl, rfl⟩

end LoopEntry

end BlockAsm
