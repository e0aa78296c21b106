import BlockAsm.Proofs.Layout

/-!
Straight-line code does in slots what its instructions do in named registers. Without loops no two
names ever share a slot and no name is moved, so the slots at the end of a function serve for all of
it: one map takes every name to its slot, whichever instruction is executed after whichever. Returned
constants go by way of slots that only scratch names have.
-/

namespace BlockAsm

universe u v

open Allocator

namespace Allocator

def Placed (a : Allocator) (σ : String → Int) : Prop :=
  ∀ ⦃x : String⦄ ⦃slot : Int⦄, a.lookup (.ofText x) = some slot → σ x = slot

theorem Grows.placed {a b : Allocator} {σ : String → Int} (grown : Grows a b) (placed : b.Placed σ) :
    a.Placed σ :=
  fun _ _ bound => placed (grown.lookup bound)

/-- No loop has a group, and no two names share a slot. -/
structure Unshared (a : Allocator) : Prop where
  wellFormed : a.WellFormed
  groupless : a.groups = []
  single : ∀ ⦃x y : String⦄ ⦃slot : Int⦄, a.lookup (.ofText x) = some slot →
    a.lookup (.ofText y) = some slot → x = y

namespace Unshared

variable {a : Allocator}

theorem empty (stem : String → String) : Unshared { stem := stem } where
  wellFormed := .empty stem
  groupless := rfl
  single _ _ _ found := by cases found

theorem place (unshared : a.Unshared) (name : String) : (a.place name).2.Unshared := by
  refine ⟨unshared.wellFormed.place name, by rw [(sameGroups_place _ name).groups, unshared.groupless], ?_⟩
  cases known : a.lookup (.ofText name) with
  | some slot =>
    rw [place_of_lookup known]
    exact unshared.single
  | none =>
    have ungrouped := bodySlot?_of_groupless unshared.groupless name
    have fresh : ∀ z, a.lookup (.ofText z) ≠ some a.nextFree := fun z found =>
      a.nextFree_notMem (unshared.wellFormed.bound found)
    intro x y slot foundX foundY
    simp only [place_of_unbound known, ungrouped, Option.getD_none, lookup_bind, Name.key_ofText,
      Value.Key.str.injEq] at foundX foundY
    by_cases hx : x = name <;> by_cases hy : y = name
    · rw [hx, hy]
    · rw [if_pos hx, Option.some.injEq] at foundX
      rw [if_neg hy, ← foundX] at foundY
      exact absurd foundY (fresh y)
    · rw [if_pos hy, Option.some.injEq] at foundY
      rw [if_neg hx, ← foundY] at foundX
      exact absurd foundX (fresh x)
    · rw [if_neg hx] at foundX
      rw [if_neg hy] at foundY
      exact unshared.single foundX foundY

theorem scratch (unshared : a.Unshared) : a.scratch.2.Unshared := by
  obtain ⟨count, placed⟩ := a.scratch_eq
  rw [placed]
  have counted : Unshared { a with scratchCount := count } :=
    ⟨unshared.wellFormed.withCount count, unshared.groupless, unshared.single⟩
  exact counted.place a.nextScratch

theorem grows {b : Allocator} (unshared : a.Unshared) (grown : Grows a b) : b.Unshared := by
  induction grown with
  | refl => exact unshared
  | place name _ ih => exact ih.place name
  | scratch _ ih => exact ih.scratch

/-- The bindings extend to a map of all names that takes no two of them to one slot. -/
theorem exists_placed (unshared : a.Unshared) : ∃ σ, Function.Injective σ ∧ a.Placed σ := by
  let number (x : String) : Nat := Encodable.encode (x.toList.map Char.toNat)
  have numbered : Function.Injective number :=
    Encodable.encode_injective.comp
      ((List.map_injective_iff.mpr fun _ _ => Char.toNat_inj.mp).comp fun _ _ => String.toList_inj.mp)
  -- Names without a slot are put above all slots that are occupied.
  refine ⟨fun x => (a.lookup (.ofText x)).getD (a.nextFree + number x), ?_, ?_⟩
  · have below : ∀ {z slot}, a.lookup (.ofText z) = some slot → slot < a.nextFree := fun found =>
      ((unshared.wellFormed.mem_occupied_iff _).mp (unshared.wellFormed.bound found)).2
    intro x y same
    cases foundX : a.lookup (.ofText x) <;> cases foundY : a.lookup (.ofText y) <;>
      simp only [foundX, foundY, Option.getD_none, Option.getD_some] at same
    · exact numbered (by omega)
    · have := below foundY
      omega
    · have := below foundX
      omega
    · exact unshared.single foundX (same ▸ foundY)
  · intro x slot found
    simp only [found, Option.getD_some]

end Unshared

/-- The names that scratch registers get begin like this. -/
def IsScratch (x : String) : Prop := "%tmp".toList <+: x.toList

instance : DecidablePred IsScratch := fun x => inferInstanceAs (Decidable ("%tmp".toList <+: x.toList))

theorem isScratch_nextScratch (a : Allocator) : IsScratch a.nextScratch := by
  simp [IsScratch, nextScratch, scratchName]

end Allocator

def Operand.token? (σ : String → Int) : Operand → Option Token
  | .register (.str x) => some (.register (σ x))
  | .constant index => some (.constant index)
  | .upvalue index => some (.upvalue index)
  | _ => none

theorem Allocator.WellFormed.token?_of_resolve {a b : Allocator} (wf : a.WellFormed) {o : Operand}
    {t : Token} {σ : String → Int} (resolved : a.resolve o = .ok (t, b)) (placed : b.Placed σ) :
    o.token? σ = some t := by
  cases o with
  | constant index =>
    cases resolved
    rfl
  | upvalue index =>
    cases resolved
    rfl
  | other v => simp [resolve, refuse] at resolved
  | register v =>
    simp only [resolve] at resolved
    split at resolved
    · rename_i slot e found
      cases resolved
      obtain ⟨x, rfl, bound⟩ := wf.placeValue_eq_ok found
      have home := a.lookup_place_self x
      rw [bound] at home
      rw [Operand.token?, placed home]
    · cases resolved

theorem Allocator.WellFormed.token?_of_resolveAll {a b : Allocator} (wf : a.WellFormed)
    {operands : List Operand} {tokens : List Token} {σ : String → Int}
    (resolved : a.resolveAll operands = (b, .ok tokens)) (placed : b.Placed σ) :
    List.Forall₂ (fun o t => o.token? σ = some t) operands tokens := by
  induction operands generalizing a tokens with
  | nil =>
    cases resolved
    exact .nil
  | cons o rest ih =>
    unfold resolveAll at resolved
    split at resolved
    · cases resolved
    · rename_i t e first
      have further := e.resolveAll_grows rest
      split at resolved
      · rename_i ts others
        cases resolved
        rw [others] at further
        exact .cons (wf.token?_of_resolve first (further.placed placed))
          (ih (wf.grows (resolve_grows first)) others)
      · cases resolved

variable {V : Type u} {M : Type v}

/-- Every name but the scratch names has its value in its slot, and the memories are the same. -/
structure Agree (σ : String → Int) (s : Store String V M) (t : Store Int V M) : Prop where
  memory : t.memory = s.memory
  cells : ∀ x, ¬ IsScratch x → t.cells (σ x) = s.cells x

namespace Agree

variable {σ : String → Int} {s : Store String V M} {t : Store Int V M}

theorem put (agree : Agree σ s t) (injective : Function.Injective σ) (x : String) (r : V × M) :
    Agree σ (s.put x r) (t.put (σ x) r) where
  memory := rfl
  cells y plain := by
    by_cases same : y = x
    · rw [same, Store.cells_put_self, Store.cells_put_self]
    · rw [Store.cells_put_of_ne _ _ same, Store.cells_put_of_ne _ _ (injective.ne same),
        agree.cells y plain]

theorem putScratch (agree : Agree σ s t) (injective : Function.Injective σ) {x : String}
    (scratch : IsScratch x) (value : V) : Agree σ s (t.put (σ x) (value, t.memory)) where
  memory := agree.memory
  cells y plain := by
    have other : y ≠ x := fun same => plain (same ▸ scratch)
    rw [Store.cells_put_of_ne _ _ (injective.ne other), agree.cells y plain]

theorem operand? (agree : Agree σ s t) (I : Interpretation V M) {o : Operand} {k : Token}
    (resolved : o.token? σ = some k) (plain : ∀ x, o = .register (.str x) → ¬ IsScratch x) :
    I.operand? s o = some (I.token t k) := by
  cases o with
  | constant index =>
    cases resolved
    rfl
  | upvalue index =>
    cases resolved
    rw [Interpretation.operand?, Interpretation.token, agree.memory]
  | other v => cases resolved
  | register v =>
    cases v with
    | str x =>
      cases resolved
      rw [Interpretation.operand?, Interpretation.token, agree.cells x (plain x rfl)]
    | _ => cases resolved

theorem operands (agree : Agree σ s t) (I : Interpretation V M) {os : List Operand}
    {ks : List Token} (resolved : List.Forall₂ (fun o k => o.token? σ = some k) os ks)
    (plain : ∀ x, .register (.str x) ∈ os → ¬ IsScratch x) :
    os.mapM (I.operand? s) = some (ks.map (I.token t)) := by
  induction resolved with
  | nil => rfl
  | cons first _ ih =>
    have head := agree.operand? I first fun x same => plain x (by simp [same])
    have tail := ih fun x membership => plain x (by simp [membership])
    simp [head, tail]

end Agree

/-- An instruction of straight-line code that writes to a register, if to anything, and has nothing to
do with scratch names. -/
def Instruction.Straight (i : Instruction) : Prop :=
  ∃ o, i.opcode? = .ok (some o) ∧ o.role? ≠ none ∧
    (∀ d, i.dest = some d → ∃ name, d = .register name) ∧
    ∀ x, .register (.str x) ∈ i.dest.toList ++ i.sources o → ¬ IsScratch x

/-- From any agreement on, the lines do what the instruction does, and agree with it again. -/
def Simulates (σ : String → Int) (i : Instruction) (lines : List Line) : Prop :=
  ∀ ⦃V : Type u⦄ ⦃M : Type v⦄ (I : Interpretation V M) ⦃s : Store String V M⦄ ⦃t : Store Int V M⦄,
    Agree σ s t → ∃ s' t' given, I.runInstruction s i = some (s', given) ∧
      I.runLines t lines = some (t', given) ∧ Agree σ s' t'

namespace Context

theorem perform_line_eq_ok {c d : Context} {o : Opcode} {operands : List Operand}
    {immediates : List Value} (h : c.perform (.line o operands immediates) = (d, .ok ())) :
    ∃ tokens, c.allocator.resolveAll operands = (d.allocator, .ok tokens) ∧
      d.lines = c.lines ++ [.code ⟨o, tokens, immediates⟩] := by
  simp only [perform] at h
  split at h
  · rename_i a tokens resolved
    cases h
    exact ⟨tokens, resolved, rfl⟩
  · cases h

/-- What is left of an instruction that is carried out as one line. -/
theorem emitted_line {c d : Context} {i : Instruction} {o : Opcode} {operands : List Operand}
    {immediates : List Value} (made : i.recipe = .line o operands immediates)
    (lowered : c.lower (.instruction i) = (d, .ok ())) :
    ∃ tokens, c.allocator.resolveAll operands = (d.allocator, .ok tokens) ∧
      c.emitted (.instruction i) = [.code ⟨o, tokens, immediates⟩] := by
  have performed := lowered
  rw [lower, made] at performed
  obtain ⟨tokens, resolved, lines⟩ := perform_line_eq_ok performed
  exact ⟨tokens, resolved, emitted_eq (by rw [lowered, lines])⟩

theorem perform_giveBack_eq_ok {c d : Context} {operands : List Operand}
    (h : c.perform (.giveBack operands) = (d, .ok ())) :
    ∃ e tokens, c.resolveReturned operands = (e, .ok tokens) ∧ d.allocator = e.allocator ∧
      d.lines = e.lines ++ [returnLine tokens] := by
  simp only [perform] at h
  split at h
  · rename_i e tokens resolved
    cases h
    exact ⟨e, tokens, resolved, rfl, rfl⟩
  · cases h

def Keeps (a : Allocator) (t t' : Store Int V M) : Prop :=
  ∀ ⦃x : String⦄ ⦃slot : Int⦄, a.lookup (.ofText x) = some slot → t'.cells slot = t.cells slot

theorem Keeps.trans {a b : Allocator} {t t' t'' : Store Int V M} (first : Keeps a t t')
    (grown : Grows a b) (second : Keeps b t' t'') : Keeps a t t'' := by
  intro x slot bound
  rw [second (grown.lookup bound), first bound]

section Return

variable {σ : String → Int} (injective : Function.Injective σ) (I : Interpretation V M)
  {s : Store String V M} {t : Store Int V M}

include injective

/-- A constant is loaded into a slot of its own, which holds it as long as bound slots are kept. -/
theorem returnStep_constant_simulates {c d : Context} {index : Value} {k : Token}
    (step : c.returnStep (.constant index) = .ok (k, d)) (placed : d.allocator.Placed σ)
    (agree : Agree σ s t) :
    ∃ loads t', d.lines = c.lines ++ loads ∧ I.runLines t loads = some (t', []) ∧ Agree σ s t' ∧
      Keeps c.allocator t t' ∧
      ∀ t'', Keeps d.allocator t' t'' → I.token t'' k = I.pool index := by
  have grown := returnStep_grows step
  cases step
  have bound := c.allocator.lookup_scratch
  have home := placed bound
  have scratched := agree.putScratch injective c.allocator.isScratch_nextScratch (I.pool index)
  rw [home] at scratched
  refine ⟨_, _, rfl, I.runLines_singleton (I.runLine_load t _ index), scratched, ?_, ?_⟩
  · intro x slot boundBefore
    -- A name that was bound before is not the scratch name, so its slot is another one.
    have other : x ≠ c.allocator.nextScratch := by
      rintro rfl
      rw [c.allocator.lookup_nextScratch] at boundBefore
      cases boundBefore
    have apart : slot ≠ c.allocator.scratch.1 := by
      rw [← home, ← placed (grown.lookup boundBefore)]
      exact injective.ne other
    exact Store.cells_put_of_ne _ _ apart
  · intro t'' kept
    rw [Interpretation.token_register, kept bound, Store.cells_put_self]

/-- One returned operand: its lines keep names and bound slots, and its token says its value as long
as both are kept. -/
theorem returnStep_simulates {c d : Context} (wf : c.allocator.WellFormed) {o : Operand} {k : Token}
    (step : c.returnStep o = .ok (k, d)) (placed : d.allocator.Placed σ)
    (plain : ∀ x, o = .register (.str x) → ¬ IsScratch x) (agree : Agree σ s t) :
    ∃ loads t', d.lines = c.lines ++ loads ∧ I.runLines t loads = some (t', []) ∧ Agree σ s t' ∧
      Keeps c.allocator t t' ∧
      ∀ t'', Agree σ s t'' → Keeps d.allocator t' t'' → I.operand? s o = some (I.token t'' k) := by
  by_cases constant : ∃ index, o = .constant index
  · obtain ⟨index, rfl⟩ := constant
    obtain ⟨loads, t', lines, ran, agree', kept, value⟩ :=
      returnStep_constant_simulates injective I step placed agree
    refine ⟨loads, t', lines, ran, agree', kept, ?_⟩
    intro t'' _ later
    rw [value t'' later, Interpretation.operand?]
  · obtain ⟨a, resolved, rfl⟩ := returnStep_eq_ok (not_exists.mp constant) step
    refine ⟨[], t, (List.append_nil _).symm, rfl, agree, fun _ _ _ => rfl, ?_⟩
    intro t'' agree'' _
    exact agree''.operand? I (wf.token?_of_resolve resolved placed) plain

theorem resolveReturned_simulates {operands : List Operand} {c d : Context} {tokens : List Token}
    (wf : c.allocator.WellFormed) (resolved : c.resolveReturned operands = (d, .ok tokens))
    (placed : d.allocator.Placed σ)
    (plain : ∀ x, .register (.str x) ∈ operands → ¬ IsScratch x) (agree : Agree σ s t) :
    ∃ loads t', d.lines = c.lines ++ loads ∧ I.runLines t loads = some (t', []) ∧ Agree σ s t' ∧
      Keeps c.allocator t t' ∧ operands.mapM (I.operand? s) = some (tokens.map (I.token t')) := by
  induction operands generalizing c tokens t with
  | nil =>
    cases resolved
    exact ⟨[], t, (List.append_nil _).symm, rfl, agree, fun _ _ _ => rfl, rfl⟩
  | cons o rest ih =>
    obtain ⟨k, e, ts, step, others, rfl⟩ := resolveReturned_cons_eq_ok resolved
    have grown := returnStep_grows step
    have further := e.resolveReturned_grows rest
    rw [others] at further
    obtain ⟨loads, t₁, lines, ran, agree₁, kept, value⟩ := returnStep_simulates injective I wf step
      (further.placed placed) (fun x same => plain x (by simp [same])) agree
    obtain ⟨more, t₂, linesRest, ranRest, agree₂, keptRest, values⟩ :=
      ih (wf.grows grown) others (fun x membership => plain x (by simp [membership])) agree₁
    refine ⟨loads ++ more, t₂, ?_, I.runLines_append ran ranRest, agree₂, kept.trans grown keptRest, ?_⟩
    · rw [linesRest, lines, List.append_assoc]
    · simp [value t₂ agree₂ keptRest, values]

end Return

theorem runLine_returnLine (I : Interpretation V M) (t : Store Int V M) (tokens : List Token) :
    I.runLine t (returnLine tokens) = some (t, [tokens.map (I.token t)]) := by
  cases tokens <;> rfl

theorem lower_result_simulates {σ : String → Int} (injective : Function.Injective σ) {c d : Context}
    (wf : c.allocator.WellFormed) {i : Instruction} {o : Opcode} {name : Value}
    (tagged : i.opcode? = .ok (some o)) (role : o.role? = some .result)
    (target : i.dest = some (.register name))
    (plain : ∀ x, .register (.str x) ∈ i.sources o → ¬ IsScratch x)
    (made : i.recipe = .line o (.register name :: i.sources o) (i.immediates o))
    (lowered : c.lower (.instruction i) = (d, .ok ())) (placed : d.allocator.Placed σ) :
    Simulates.{u, v} σ i (c.emitted (.instruction i)) := by
  intro V M I s t agree
  obtain ⟨tokens, resolved, written⟩ := emitted_line made lowered
  rw [written]
  cases wf.token?_of_resolveAll resolved placed with
  | cons first others =>
    rename_i k ks
    cases name with
    | str x =>
      cases first
      have values := agree.operands I others plain
      refine ⟨_, _, [], ?_, ?_, agree.put injective x (I.apply o (i.immediates o)
        (ks.map (I.token t)) s.memory)⟩
      · simp only [Interpretation.runInstruction, tagged, values, Option.bind_some, role, target]
      · apply I.runLines_singleton
        simp only [Interpretation.runLine, role, agree.memory]
    | _ => cases first

theorem lower_effect_simulates {σ : String → Int} {c d : Context}
    (wf : c.allocator.WellFormed) {i : Instruction} {o : Opcode}
    (tagged : i.opcode? = .ok (some o)) (role : o.role? = some .effect)
    (plain : ∀ x, .register (.str x) ∈ i.sources o → ¬ IsScratch x)
    (made : i.recipe = .line o (i.sources o) (i.immediates o))
    (lowered : c.lower (.instruction i) = (d, .ok ())) (placed : d.allocator.Placed σ) :
    Simulates.{u, v} σ i (c.emitted (.instruction i)) := by
  intro V M I s t agree
  obtain ⟨tokens, resolved, written⟩ := emitted_line made lowered
  rw [written]
  have values := agree.operands I (wf.token?_of_resolveAll resolved placed) plain
  refine ⟨⟨s.cells, (I.apply o (i.immediates o) (tokens.map (I.token t)) s.memory).2⟩,
    ⟨t.cells, (I.apply o (i.immediates o) (tokens.map (I.token t)) t.memory).2⟩, [], ?_, ?_, ?_, ?_⟩
  · simp only [Interpretation.runInstruction, tagged, values, Option.bind_some, role]
  · apply I.runLines_singleton
    simp only [Interpretation.runLine, role]
  · rw [agree.memory]
  · exact agree.cells

theorem lower_return_simulates {σ : String → Int} (injective : Function.Injective σ) {c d : Context}
    (wf : c.allocator.WellFormed) {i : Instruction} (tagged : i.opcode? = .ok (some .ret))
    (plain : ∀ x, .register (.str x) ∈ i.args → ¬ IsScratch x)
    (lowered : c.lower (.instruction i) = (d, .ok ())) (placed : d.allocator.Placed σ) :
    Simulates.{u, v} σ i (c.emitted (.instruction i)) := by
  intro V M I s t agree
  have made := Instruction.recipe_of_ret tagged
  rw [lower, made] at lowered
  obtain ⟨e, tokens, resolved, same, lines⟩ := perform_giveBack_eq_ok lowered
  rw [same] at placed
  obtain ⟨loads, t', loaded, ran, agree', -, values⟩ :=
    resolveReturned_simulates injective I wf resolved placed plain agree
  have written : c.emitted (.instruction i) = loads ++ [returnLine tokens] := by
    apply emitted_eq
    rw [lower, made, lowered, lines, loaded, List.append_assoc]
  refine ⟨s, t', [tokens.map (I.token t')], ?_, ?_, agree'⟩
  · simp only [Interpretation.runInstruction, tagged, Instruction.sources, values, Option.bind_some,
      Opcode.role?]
  · rw [written]
    exact I.runLines_append ran (I.runLines_singleton (runLine_returnLine I t' tokens))

/-- The lines of an instruction of straight-line code simulate it. -/
theorem lower_simulates {σ : String → Int} (injective : Function.Injective σ) {c d : Context}
    (wf : c.allocator.WellFormed) {i : Instruction} (straight : i.Straight)
    (lowered : c.lower (.instruction i) = (d, .ok ())) (placed : d.allocator.Placed σ) :
    Simulates.{u, v} σ i (c.emitted (.instruction i)) := by
  obtain ⟨o, tagged, meant, registers, plain⟩ := straight
  obtain ⟨role, role_eq⟩ := Option.ne_none_iff_exists'.mp meant
  have plainSources : ∀ x, .register (.str x) ∈ i.sources o → ¬ IsScratch x := fun x membership =>
    plain x (List.mem_append_right _ membership)
  have refused : ∀ operands why, i.recipe ≠ .abort operands why := by
    intro operands why made
    have outcome := congrArg Prod.snd lowered
    rw [lower, made] at outcome
    exact c.perform_abort_ne_ok operands why outcome
  cases role with
  | result =>
    rcases Instruction.recipe_of_result tagged role_eq with ⟨operands, why, made⟩ | ⟨d, target, made⟩
    · exact absurd made (refused operands why)
    · obtain ⟨name, rfl⟩ := registers d target
      exact lower_result_simulates injective wf tagged role_eq target plainSources made lowered placed
  | effect =>
    rcases Instruction.recipe_of_effect tagged role_eq with ⟨operands, why, made⟩ | made
    · exact absurd made (refused operands why)
    · exact lower_effect_simulates wf tagged role_eq plainSources made lowered placed
  | exit =>
    cases o with
    | ret => exact lower_return_simulates injective wf tagged plainSources lowered placed
    | _ => cases role_eq

end Context

theorem Simulates.run {σ : String → Int} (I : Interpretation V M)
    {path : List (Instruction × List Line)} (each : ∀ p ∈ path, Simulates.{u, v} σ p.1 p.2)
    {s : Store String V M} {t : Store Int V M} (agree : Agree σ s t) :
    ∃ s' t' given, I.runInstructions s (path.map Prod.fst) = some (s', given) ∧
      I.runLines t (path.flatMap Prod.snd) = some (t', given) ∧ Agree σ s' t' := by
  induction path generalizing s t with
  | nil => exact ⟨s, t, [], rfl, rfl, agree⟩
  | cons p rest ih =>
    obtain ⟨s₁, t₁, first, ranInstruction, ranLines, agree₁⟩ := each p (by simp) I agree
    obtain ⟨s₂, t₂, more, ranInstructions, ranRest, agree₂⟩ :=
      ih (fun q membership => each q (by simp [membership])) agree₁
    refine ⟨s₂, t₂, first ++ more, ?_, I.runLines_append ranLines ranRest, agree₂⟩
    simp only [List.map_cons, Interpretation.runInstructions, ranInstruction, Option.bind_some,
      ranInstructions, Option.map_some]

end BlockAsm
