import BlockAsm.Proofs.ReturnedValues

/-!
Slots as numbers. As long as no loop is entered and scratch names are left to the scratch registers,
the search for a free slot always ends at the number of names that are bound, so the slots can be told in
advance: list the names of a function in the order in which they are met, drop repetitions, and number
what is left. The list is read off the instructions in their own terms, and with it the lines that they
become.
-/

namespace BlockAsm

open Allocator

/-- The names in order, bound to the numbers from the given one on. -/
def numbered (n : Nat) : List String → Table Name Int
  | [] => []
  | x :: rest => (.ofText x, n) :: numbered (n + 1) rest

theorem get?_numbered (n : Nat) (xs : List String) (x : String) :
    Table.get? (numbered n xs) (.str x) = if x ∈ xs then some ((n + xs.idxOf x : Nat) : Int) else none := by
  induction xs generalizing n with
  | nil => rfl
  | cons y rest ih =>
    by_cases same : y = x
    · simp [numbered, Table.get?, same]
    · have later : Table.get? (numbered n (y :: rest)) (.str x) =
          Table.get? (numbered (n + 1) rest) (.str x) := by
        simp [numbered, Table.get?, same]
      rw [later, ih, List.idxOf_cons_ne _ same, Nat.succ_eq_add_one, Nat.add_right_comm, ← Nat.add_assoc]
      simp only [List.mem_cons, Ne.symm same, false_or]

theorem set_numbered {xs : List String} {x : String} (unlisted : x ∉ xs) (n : Nat) :
    Table.set (numbered n xs) (.ofText x) ((n + xs.length : Nat) : Int) = numbered n (xs ++ [x]) := by
  induction xs generalizing n with
  | nil => rfl
  | cons y rest ih =>
    have other : x ≠ y := List.ne_of_not_mem_cons unlisted
    have onward := ih (List.not_mem_of_not_mem_cons unlisted) (n + 1)
    rw [Nat.add_right_comm, Nat.add_assoc] at onward
    have passed : ∀ slot, Table.set (numbered n (y :: rest)) (.ofText x) slot =
        (.ofText y, (n : Int)) :: Table.set (numbered (n + 1) rest) (.ofText x) slot := by
      simp [numbered, Table.set, Ne.symm other]
    rw [passed, List.length_cons, onward]
    rfl

theorem eraseDups_concat (xs : List String) (x : String) :
    (xs ++ [x]).eraseDups = if x ∈ xs then xs.eraseDups else xs.eraseDups ++ [x] := by
  rw [List.eraseDups_append]
  split
  · rename_i listed
    simp [List.removeAll, listed]
  · rename_i unlisted
    simp [List.removeAll, unlisted, List.eraseDups_cons]

theorem filterMap_cons_toList {α β : Type} (g : α → Option β) (x : α) (xs : List α) :
    (x :: xs).filterMap g = (g x).toList ++ xs.filterMap g := by
  cases given : g x <;> simp [given]

namespace Allocator

/-- Binding a name to the first slot that is not in use takes one slot more into use. -/
theorem WellFormed.used_bind {a : Allocator} {name : Name} (wf : a.WellFormed)
    (bound : (a.bind name a.used).WellFormed) : (a.bind name a.used).used = a.used + 1 := by
  have held : ∀ slot, _ ↔ _ := mem_occupied_bind a name a.used
  simp only [bound.mem_occupied_iff_used, wf.mem_occupied_iff_used] at held
  have start := wf.used_eq
  have least := a.nextFree_nonneg
  -- the new slot is in use, and the last slot in use is not beyond it
  have low := held a.used
  have high := held ((a.bind name a.used).used - 1)
  omega

/-- The names that were met, without repetitions, have the slots `0, 1, 2, …` in their order, and no
other slot is in use. The next scratch register is the one of the given number. -/
structure Numbered (a : Allocator) (met : List String) (next : Nat) : Prop where
  wellFormed : a.WellFormed
  bindings : a.bindings = numbered 0 met.eraseDups
  used : a.used = met.eraseDups.length
  groupless : a.groups = []
  count : a.scratchCount = next
  fresh : ∀ n, next ≤ n → scratchName n ∉ met

namespace Numbered

variable {a b : Allocator} {met : List String} {next : Nat}

theorem empty (stem : String → String) : Numbered { stem := stem } [] 0 where
  wellFormed := .empty stem
  bindings := rfl
  used := rfl
  groupless := rfl
  count := rfl
  fresh _ _ := List.not_mem_nil

theorem lookup (h : a.Numbered met next) (x : String) :
    a.lookup (.ofText x) = if x ∈ met then some (met.eraseDups.idxOf x : Int) else none := by
  rw [Allocator.lookup, h.bindings, Name.key_ofText, get?_numbered]
  simp only [List.mem_eraseDups, Nat.zero_add]

theorem placed (h : a.Numbered met next) {σ : String → Int}
    (numbers : ∀ x ∈ met.eraseDups, σ x = met.eraseDups.idxOf x) : a.Placed σ := by
  intro x slot bound
  rw [h.lookup] at bound
  split at bound
  · rename_i listed
    rw [numbers x (List.mem_eraseDups.mpr listed)]
    exact Option.some.inj bound
  · cases bound

theorem place (h : a.Numbered met next) {x : String} (plain : ∀ n, next ≤ n → scratchName n ≠ x) :
    (a.place x).2.Numbered (met ++ [x]) next := by
  have fresh : ∀ n, next ≤ n → scratchName n ∉ met ++ [x] := by
    intro n later listed
    rcases List.mem_append.mp listed with old | new
    · exact h.fresh n later old
    · exact plain n later (List.mem_singleton.mp new)
  by_cases listed : x ∈ met
  · have bound := h.lookup x
    rw [if_pos listed] at bound
    have same := eraseDups_concat met x
    rw [if_pos listed] at same
    rw [place_of_lookup bound]
    exact ⟨h.wellFormed, same ▸ h.bindings, same ▸ h.used, h.groupless, h.count, fresh⟩
  · have unbound := h.lookup x
    rw [if_neg listed] at unbound
    have more := eraseDups_concat met x
    rw [if_neg listed] at more
    have ungrouped := bodySlot?_of_groupless h.groupless x
    have wf := h.wellFormed.place x
    have placed := h.wellFormed.place_eq unbound
    rw [ungrouped, Option.getD_none] at placed
    rw [placed] at wf ⊢
    refine ⟨wf, ?_, ?_, h.groupless, h.count, fresh⟩
    · have unlisted : x ∉ met.eraseDups := by rwa [List.mem_eraseDups]
      have bound := set_numbered unlisted 0
      rw [more, ← bound, Nat.zero_add, ← h.bindings, ← h.used]
      rfl
    · rw [h.wellFormed.used_bind wf, h.used, more, List.length_append, List.length_singleton]
      rfl

theorem firstScratch_eq_self {bindings : Table Name Int} {n : Nat}
    (unbound : Table.get? bindings (.str (scratchName n)) = none) (tries : Nat) :
    firstScratch bindings tries n = n := by
  cases tries with
  | zero => rfl
  | succ tries => simp [firstScratch, Table.has, unbound]

theorem scratch (h : a.Numbered met next) : a.nextScratch = scratchName next ∧
    a.scratch.2.Numbered (met ++ [scratchName next]) (next + 1) := by
  have unbound := h.lookup (scratchName next)
  rw [if_neg (h.fresh next (Nat.le_refl next))] at unbound
  have found : firstScratch a.bindings a.bindings.length a.scratchCount = next := by
    rw [h.count]
    exact firstScratch_eq_self unbound _
  have counted : Numbered { a with scratchCount := next + 1 } met (next + 1) :=
    ⟨h.wellFormed.withCount _, h.bindings, h.used, h.groupless, rfl,
      fun n later => h.fresh n (Nat.le_of_succ_le later)⟩
  refine ⟨by rw [nextScratch, found], ?_⟩
  unfold Allocator.scratch
  rw [found]
  apply counted.place
  intro n later same
  have := scratchName_injective same
  omega

theorem placeValue (h : a.Numbered met next) {v : Value} {slot : Int}
    (placed : a.placeValue v = .ok (slot, b)) (plain : ∀ x, v = .str x → ¬ IsScratch x) :
    b.Numbered (met ++ v.text?.toList) next := by
  obtain ⟨x, rfl, bound⟩ := h.wellFormed.placeValue_eq_ok placed
  have named : (a.place x).2.Numbered (met ++ [x]) next := by
    apply h.place
    intro n _ same
    exact plain x rfl (same ▸ isScratch_scratchName n)
  rwa [bound] at named

theorem seed (h : a.Numbered met next) {values : List Value} (declared : a.seed values = (b, .ok ()))
    (plain : ∀ x, .str x ∈ values → ¬ IsScratch x) :
    b.Numbered (met ++ values.filterMap Value.text?) next := by
  induction values generalizing a met with
  | nil =>
    cases declared
    rwa [List.filterMap_nil, List.append_nil]
  | cons v rest ih =>
    unfold Allocator.seed at declared
    split at declared
    · rename_i slot c placed
      have first := h.placeValue placed fun x same => plain x (by simp [same])
      have others := ih first declared fun x listed => plain x (by simp [listed])
      rwa [List.append_assoc, ← filterMap_cons_toList] at others
    · cases declared

theorem resolve (h : a.Numbered met next) {o : Operand} {t : Token}
    (resolved : a.resolve o = .ok (t, b)) (plain : ∀ x, o = .register (.str x) → ¬ IsScratch x) :
    b.Numbered (met ++ o.register?.toList) next := by
  cases o with
  | constant index =>
    cases resolved
    exact (List.append_nil met).symm ▸ h
  | upvalue index =>
    cases resolved
    exact (List.append_nil met).symm ▸ h
  | other v => simp [Allocator.resolve, refuse] at resolved
  | register v =>
    simp only [Allocator.resolve] at resolved
    split at resolved
    · rename_i slot c placed
      cases resolved
      have named := h.placeValue placed fun x same => plain x (by rw [same])
      obtain ⟨x, rfl, -⟩ := h.wellFormed.placeValue_eq_ok placed
      exact named
    · cases resolved

theorem resolveAll (h : a.Numbered met next) {operands : List Operand} {tokens : List Token}
    (resolved : a.resolveAll operands = (b, .ok tokens))
    (plain : ∀ x, .register (.str x) ∈ operands → ¬ IsScratch x) :
    b.Numbered (met ++ operands.filterMap Operand.register?) next := by
  induction operands generalizing a met tokens with
  | nil =>
    cases resolved
    rwa [List.filterMap_nil, List.append_nil]
  | cons o rest ih =>
    unfold Allocator.resolveAll at resolved
    split at resolved
    · cases resolved
    · rename_i t c first
      split at resolved
      · rename_i ts others
        cases resolved
        have head := h.resolve first fun x same => plain x (by simp [same])
        have tail := ih head others fun x listed => plain x (by simp [listed])
        rwa [List.append_assoc, ← filterMap_cons_toList] at tail
      · cases resolved

end Numbered

end Allocator

namespace Operand

def isConstant : Operand → Bool
  | .constant _ => true
  | _ => false

/-- Returned operands with scratch registers for the constants, the first of which has the given
number. -/
def scratched (next : Nat) : List Operand → List Operand
  | [] => []
  | .constant _ :: rest => .register (.str (scratchName next)) :: scratched (next + 1) rest
  | o :: rest => o :: scratched next rest

def loads (σ : String → Int) (next : Nat) : List Operand → List Line
  | [] => []
  | .constant index :: rest =>
    .code ⟨.loadk, [.register (σ (scratchName next)), .constant index], []⟩ :: loads σ (next + 1) rest
  | _ :: rest => loads σ next rest

theorem scratched_cons (next : Nat) (o : Operand) (rest : List Operand) : scratched next (o :: rest) =
    scratched next [o] ++ scratched (next + [o].countP isConstant) rest := by
  cases o <;> rfl

theorem loads_cons (σ : String → Int) (next : Nat) (o : Operand) (rest : List Operand) :
    loads σ next (o :: rest) = loads σ next [o] ++ loads σ (next + [o].countP isConstant) rest := by
  cases o <;> rfl

theorem length_scratched (next : Nat) (os : List Operand) : (scratched next os).length = os.length := by
  fun_induction scratched next os with
  | case1 => rfl
  | case2 next _ rest ih => rw [List.length_cons, ih, List.length_cons]
  | case3 next o rest _ ih => rw [List.length_cons, ih, List.length_cons]

end Operand

namespace Instruction

/-- The operands that the line of an instruction is about, in the order in which they are resolved. -/
def places (i : Instruction) (next : Nat) : Opcode → List Operand
  | .settabup => i.sources .settabup
  | .settable => i.sources .settable
  | .ret => Operand.scratched next i.args
  | .call => i.args.take 1
  | .forloop => i.args.take 1
  | .forprep => i.args.take 3
  | o => i.dest.toList ++ i.sources o

/-- The plain values at the end of the line. -/
def carried (i : Instruction) : Opcode → List Value
  | .ret => if i.args.isEmpty then [.int 0, .int 0] else [.int (i.args.length + 1)]
  | .call => [.int i.args.length, (i.field? "nret").getD (.int 1)]
  | .forloop => (i.field? "body").toList
  | o => i.immediates o

/-- The lines before it. -/
def preceding (i : Instruction) (σ : String → Int) (next : Nat) : Opcode → List Line
  | .ret => Operand.loads σ next i.args
  | _ => []

end Instruction

namespace Item

/-- The names that an item is about, in the order in which they are resolved. -/
def namesMet (next : Nat) : Item → List String
  | .instruction i =>
    match i.opcode? with
    | .ok (some o) => (i.places next o).filterMap Operand.register?
    | _ => []
  | .other _ => []

def scratches (item : Item) : Nat :=
  match item.opcode? with
  | some .ret => item.args.countP Operand.isConstant
  | _ => 0

end Item

/-- The names that items are about, scratch names being given out from the given number on. -/
def namesMet (next : Nat) : List Item → List String
  | [] => []
  | item :: rest => item.namesMet next ++ namesMet (next + item.scratches) rest

def scratchTotal (items : List Item) : Nat := (items.map Item.scratches).sum

@[simp] theorem scratchTotal_cons (item : Item) (items : List Item) :
    scratchTotal (item :: items) = item.scratches + scratchTotal items := by
  simp [scratchTotal]

/-- The registers of a function in the order of their slots. -/
def Function.registers (f : Function) : List String :=
  (f.localNames ++ namesMet 0 (f.blocks.flatMap Block.items)).eraseDups

/-- The lines of an item if a map gives the slots: a line with the tokens of the operands, or the payload
of an instruction with an unknown tag. -/
inductive Codes (σ : String → Int) (next : Nat) : Item → List Line → Prop
  | structured {i : Instruction} {o : Opcode} {tokens : List Token} : i.opcode? = .ok (some o) →
      List.Forall₂ (fun p t => p.token? σ = some t) (i.places next o) tokens →
      Codes σ next (.instruction i) (i.preceding σ next o ++ [.code ⟨o, tokens, i.carried o⟩])
  | payload {i : Instruction} {v : Value} : i.opcode? = .ok none → i.field? "raw" = some v →
      Codes σ next (.instruction i) [.verbatim v]

/-- Items one after the other, each beside its lines. -/
inductive Coded (σ : String → Int) : Nat → List (Item × List Line) → Prop
  | nil {next : Nat} : Coded σ next []
  | cons {next : Nat} {item : Item} {lines : List Line} {rest : List (Item × List Line)} :
      Codes σ next item lines → Coded σ (next + item.scratches) rest →
      Coded σ next ((item, lines) :: rest)

namespace Context

theorem returnStep_numbered {c d : Context} {met : List String} {next : Nat} {o : Operand} {t : Token}
    (h : c.allocator.Numbered met next) (step : c.returnStep o = .ok (t, d))
    (plain : ∀ x, o = .register (.str x) → ¬ IsScratch x) :
    d.allocator.Numbered (met ++ (Operand.scratched next [o]).filterMap Operand.register?)
        (next + [o].countP Operand.isConstant) ∧
      ∀ σ, d.allocator.Placed σ →
        List.Forall₂ (fun p t => p.token? σ = some t) (Operand.scratched next [o]) [t] ∧
        d.lines = c.lines ++ Operand.loads σ next [o] := by
  by_cases constant : ∃ index, o = .constant index
  · obtain ⟨index, rfl⟩ := constant
    obtain ⟨named, numbered⟩ := h.scratch
    have bound := c.allocator.lookup_scratch
    cases step
    refine ⟨numbered, ?_⟩
    intro σ placed
    have home := placed bound
    rw [named] at home
    refine ⟨.cons ?_ .nil, ?_⟩
    · rw [Operand.token?, home]
    · rw [Operand.loads, home]
      rfl
  · obtain ⟨a, resolved, rfl⟩ := returnStep_eq_ok (not_exists.mp constant) step
    have numbered := h.resolve resolved plain
    have varying : Operand.scratched next [o] = [o] ∧ [o].countP Operand.isConstant = 0 ∧
        ∀ σ, Operand.loads σ next [o] = [] := by
      cases o with
      | constant index => exact absurd ⟨index, rfl⟩ constant
      | _ => exact ⟨rfl, rfl, fun _ => rfl⟩
    obtain ⟨same, none, silent⟩ := varying
    rw [same, none, filterMap_cons_toList, List.filterMap_nil, List.append_nil]
    refine ⟨numbered, ?_⟩
    intro σ placed
    rw [silent, List.append_nil]
    exact ⟨.cons (h.wellFormed.token?_of_resolve resolved placed) .nil, rfl⟩

theorem resolveReturned_numbered {c d : Context} {met : List String} {next : Nat}
    {operands : List Operand} {tokens : List Token} (h : c.allocator.Numbered met next)
    (resolved : c.resolveReturned operands = (d, .ok tokens))
    (plain : ∀ x, .register (.str x) ∈ operands → ¬ IsScratch x) :
    d.allocator.Numbered (met ++ (Operand.scratched next operands).filterMap Operand.register?)
        (next + operands.countP Operand.isConstant) ∧
      ∀ σ, d.allocator.Placed σ →
        List.Forall₂ (fun p t => p.token? σ = some t) (Operand.scratched next operands) tokens ∧
        d.lines = c.lines ++ Operand.loads σ next operands := by
  induction operands generalizing c met next tokens with
  | nil =>
    cases resolved
    refine ⟨?_, fun σ _ => ⟨.nil, (List.append_nil _).symm⟩⟩
    rwa [Operand.scratched, List.filterMap_nil, List.append_nil]
  | cons o rest ih =>
    obtain ⟨t, e, ts, step, others, rfl⟩ := resolveReturned_cons_eq_ok resolved
    have further := e.resolveReturned_grows rest
    rw [others] at further
    obtain ⟨numbered, first⟩ := returnStep_numbered h step fun x same => plain x (by simp [same])
    obtain ⟨numberedRest, later⟩ := ih numbered others fun x listed => plain x (by simp [listed])
    have counted : (o :: rest).countP Operand.isConstant =
        [o].countP Operand.isConstant + rest.countP Operand.isConstant := by
      rw [← List.countP_append, List.singleton_append]
    rw [Operand.scratched_cons, List.filterMap_append, ← List.append_assoc, counted, ← Nat.add_assoc]
    refine ⟨numberedRest, ?_⟩
    intro σ placed
    obtain ⟨token, lines⟩ := first σ (further.placed placed)
    obtain ⟨tokens, linesRest⟩ := later σ placed
    refine ⟨List.rel_append token tokens, ?_⟩
    rw [linesRest, lines, List.append_assoc, ← Operand.loads_cons]

end Context

namespace Instruction

theorem recipe_of_places {i : Instruction} {o : Opcode} (tagged : i.opcode? = .ok (some o))
    (entersNot : o ≠ .forprep) (returnsNot : o ≠ .ret) (next : Nat) :
    (∃ operands why, i.recipe = .abort operands why) ∨
      i.recipe = .line o (i.places next o) (i.carried o) ∨
      o = .forloop ∧ ∃ index body, i.places next o = [index] ∧ i.carried o = [body] ∧
        i.recipe = .stepLoop index body := by
  cases o with
  | forprep => exact absurd rfl entersNot
  | ret => exact absurd rfl returnsNot
  | call =>
    rcases recipe_cases tagged with ⟨why, refused⟩ | settled
    · exact .inl ⟨[], why, refused⟩
    · exact .inr (.inl (callRecipe_eq_ok settled))
  | forloop =>
    rcases recipe_cases tagged with ⟨why, refused⟩ | settled
    · exact .inl ⟨[], why, refused⟩
    · obtain ⟨index, body, rest, given, held, made⟩ := stepRecipe_eq_ok settled
      refine .inr (.inr ⟨rfl, index, body, ?_, ?_, made⟩)
      · rw [places, given]
        rfl
      · rw [carried, held]
        rfl
  | settabup =>
    rcases recipe_of_effect tagged rfl with aborted | made
    · exact .inl aborted
    · exact .inr (.inl made)
  | settable =>
    rcases recipe_of_effect tagged rfl with aborted | made
    · exact .inl aborted
    · exact .inr (.inl made)
  | _ =>
    rcases recipe_of_result tagged rfl with aborted | ⟨d, target, made⟩
    · exact .inl aborted
    · refine .inr (.inl ?_)
      simp only [places, target]
      exact made

end Instruction

namespace Context

/-- Without loop groups, a loop is stepped at the slot of its index. -/
theorem perform_line_of_stepLoop {c d : Context} {index : Operand} {body : Value}
    (groupless : c.allocator.groups = []) (h : c.stepLoop index body = (d, .ok ())) :
    c.perform (.line .forloop [index] [body]) = (d, .ok ()) := by
  unfold stepLoop at h
  split at h
  · cases h
  · rename_i base found
    cases index with
    | register v =>
      cases v with
      | str x => simp [groupBase, nameText, Except.map, group?, groupless, Table.get?] at found
      | _ => simp [groupBase, nameText, Except.map] at found
    | _ => simp [groupBase] at found
  · split at h
    · cases h
    · rename_i t a resolved
      simp only [perform, resolveAll, resolved]
      exact h

theorem perform_places {c d : Context} {i : Instruction} {o : Opcode}
    (groupless : c.allocator.groups = []) (tagged : i.opcode? = .ok (some o))
    (entersNot : o ≠ .forprep) (returnsNot : o ≠ .ret) (next : Nat)
    (lowered : c.lower (.instruction i) = (d, .ok ())) :
    c.perform (.line o (i.places next o) (i.carried o)) = (d, .ok ()) ∧
      i.recipe.operands = i.places next o := by
  rw [lower] at lowered
  rcases Instruction.recipe_of_places tagged entersNot returnsNot next with
    ⟨operands, why, made⟩ | made | ⟨rfl, index, body, places, carried, made⟩
  · rw [made] at lowered
    exact absurd (congrArg Prod.snd lowered) (c.perform_abort_ne_ok operands why)
  · rw [made] at lowered ⊢
    exact ⟨lowered, rfl⟩
  · rw [made] at lowered ⊢
    rw [places, carried]
    exact ⟨perform_line_of_stepLoop groupless lowered, rfl⟩

theorem lower_line_numbered {c d : Context} {met : List String} {next : Nat} {i : Instruction}
    {o : Opcode} (h : c.allocator.Numbered met next) (tagged : i.opcode? = .ok (some o))
    (entersNot : o ≠ .forprep) (returnsNot : o ≠ .ret) (plain : ∀ x ∈ i.names, ¬ IsScratch x)
    (lowered : c.lower (.instruction i) = (d, .ok ())) :
    d.allocator.Numbered (met ++ (i.places next o).filterMap Operand.register?) next ∧
      ∀ σ, d.allocator.Placed σ → Codes σ next (.instruction i) (c.emitted (.instruction i)) := by
  obtain ⟨performed, operands⟩ := perform_places h.groupless tagged entersNot returnsNot next lowered
  obtain ⟨tokens, resolved, lines⟩ := perform_line_eq_ok performed
  constructor
  · apply h.resolveAll resolved
    intro x listed
    exact plain x (i.mem_names_of_mem_operands (operands ▸ listed))
  · intro σ placed
    have written : c.emitted (.instruction i) = [.code ⟨o, tokens, i.carried o⟩] :=
      emitted_eq (by rw [lowered, lines])
    have alone : i.preceding σ next o = [] := by
      cases o with
      | ret => exact absurd rfl returnsNot
      | _ => rfl
    have coded := Codes.structured tagged (h.wellFormed.token?_of_resolveAll resolved placed)
    rwa [alone, List.nil_append, ← written] at coded

theorem lower_return_numbered {c d : Context} {met : List String} {next : Nat} {i : Instruction}
    (h : c.allocator.Numbered met next) (tagged : i.opcode? = .ok (some .ret))
    (plain : ∀ x ∈ i.names, ¬ IsScratch x) (lowered : c.lower (.instruction i) = (d, .ok ())) :
    d.allocator.Numbered (met ++ (i.places next .ret).filterMap Operand.register?)
        (next + i.args.countP Operand.isConstant) ∧
      ∀ σ, d.allocator.Placed σ → Codes σ next (.instruction i) (c.emitted (.instruction i)) := by
  have performed := lowered
  rw [lower, Instruction.recipe_of_ret tagged] at performed
  obtain ⟨e, tokens, resolved, same, lines⟩ := perform_giveBack_eq_ok performed
  obtain ⟨numbered, coded⟩ := resolveReturned_numbered h resolved fun x listed =>
    plain x (Instruction.mem_names_of_mem_args listed)
  rw [same]
  refine ⟨numbered, ?_⟩
  intro σ placed
  obtain ⟨each, loaded⟩ := coded σ placed
  have written : c.emitted (.instruction i) = Operand.loads σ next i.args ++ [returnLine tokens] := by
    apply emitted_eq
    rw [lowered, lines, loaded, List.append_assoc]
  have line : returnLine tokens = .code ⟨.ret, tokens, i.carried .ret⟩ := by
    have count : i.args.length = tokens.length := by
      rw [← each.length_eq, Operand.length_scratched]
    cases tokens with
    | nil => simp [returnLine, Instruction.carried, List.eq_nil_of_length_eq_zero count]
    | cons t ts =>
      have some : i.args ≠ [] := List.ne_nil_of_length_pos (by simp [count])
      simp [returnLine, Instruction.carried, count, some]
  rw [written, line]
  exact Codes.structured tagged each

/-- What an item does to a numbered allocator, and what its lines are wherever slots end up. -/
theorem lower_numbered {c d : Context} {met : List String} {next : Nat} {item : Item}
    (h : c.allocator.Numbered met next) (loopless : item.opcode? ≠ some .forprep)
    (plain : ∀ x ∈ item.names, ¬ IsScratch x) (lowered : c.lower item = (d, .ok ())) :
    d.allocator.Numbered (met ++ item.namesMet next) (next + item.scratches) ∧
      ∀ σ, d.allocator.Placed σ → Codes σ next item (c.emitted item) := by
  cases item with
  | other v => cases lowered
  | instruction i =>
    cases tagged : i.opcode? with
    | error why =>
      rw [lower, Instruction.recipe_of_fault tagged] at lowered
      exact absurd (congrArg Prod.snd lowered) (c.perform_abort_ne_ok [] why)
    | ok found =>
      cases found with
      | none =>
        have performed := lowered
        rw [lower, Instruction.recipe_of_unknown tagged] at performed
        cases raw : i.rawRecipe with
        | error why =>
          rw [raw] at performed
          exact absurd (congrArg Prod.snd performed) (c.perform_abort_ne_ok [] why)
        | ok r =>
          obtain ⟨payload, held, rfl⟩ := Instruction.rawRecipe_eq_ok raw
          rw [raw] at performed
          cases performed
          have unnamed : (Item.instruction i).namesMet next = [] := by
            simp only [Item.namesMet, tagged]
          have none : (Item.instruction i).scratches = 0 := by
            simp only [Item.scratches, Item.opcode?, tagged]
          rw [unnamed, none, List.append_nil]
          refine ⟨h, fun σ _ => ?_⟩
          have written : c.emitted (.instruction i) = [.verbatim payload] :=
            emitted_eq (by rw [lowered]; rfl)
          rw [written]
          exact .payload tagged held
      | some o =>
        have named : (Item.instruction i).namesMet next =
            (i.places next o).filterMap Operand.register? := by
          simp only [Item.namesMet, tagged]
        have opcode : (Item.instruction i).opcode? = some o := by
          simp only [Item.opcode?, tagged]
        rw [named]
        by_cases returns : o = .ret
        · cases returns
          have taken : (Item.instruction i).scratches = i.args.countP Operand.isConstant := by
            simp only [Item.scratches, opcode, Item.args]
          rw [taken]
          exact lower_return_numbered h tagged plain lowered
        · have none : (Item.instruction i).scratches = 0 := by
            cases o with
            | ret => exact absurd rfl returns
            | _ => simp only [Item.scratches, opcode]
          rw [none]
          apply lower_line_numbered h tagged _ returns plain lowered
          exact fun same => loopless (same ▸ opcode)

theorem lowerAll_numbered {c d : Context} {met : List String} {next : Nat} {label : Value}
    {items : List Item} (h : c.allocator.Numbered met next)
    (loopless : ∀ item ∈ items, item.opcode? ≠ some .forprep)
    (plain : ∀ item ∈ items, ∀ x ∈ item.names, ¬ IsScratch x)
    (lowered : c.lowerAll label items = (d, .ok ())) :
    Grows c.allocator d.allocator ∧
      d.allocator.Numbered (met ++ namesMet next items) (next + scratchTotal items) ∧
      ∀ σ, d.allocator.Placed σ → Coded σ next (c.segments items) := by
  induction items generalizing c met next with
  | nil =>
    cases lowered
    refine ⟨.refl, ?_, fun _ _ => .nil⟩
    rwa [namesMet, List.append_nil]
  | cons item rest ih =>
    unfold lowerAll at lowered
    split at lowered
    · rename_i e first
      have grownFirst := (c.lower_cases item).resolve_right fun ⟨_, _, _, _, _, entering, _⟩ =>
        loopless item (by simp) entering
      rw [first] at grownFirst
      obtain ⟨numbered, codes⟩ := lower_numbered h (loopless item (by simp)) (plain item (by simp)) first
      obtain ⟨grown, numberedRest, coded⟩ := ih numbered
        (fun other later => loopless other (by simp [later]))
        (fun other later => plain other (by simp [later])) lowered
      refine ⟨grownFirst.trans grown, ?_, ?_⟩
      · rw [List.append_assoc, Nat.add_assoc] at numberedRest
        rw [namesMet, scratchTotal_cons]
        exact numberedRest
      · intro σ placed
        rw [segments, first]
        exact .cons (codes σ (grown.placed placed)) (coded σ placed)
    · cases lowered

theorem create_numbered {suffix : Value} {f : Function} {c : Context}
    (created : create suffix f.locals = .ok c) (plain : ∀ x ∈ f.localNames, ¬ IsScratch x) :
    c.allocator.Numbered f.localNames 0 := by
  obtain ⟨p, values, a, -, members, seeded, rfl⟩ := create_eq_ok created
  have locals : f.localNames = values.filterMap Value.text? := by
    rw [Function.localNames, members, Option.getD_some]
  rw [locals] at plain ⊢
  apply (Numbered.empty p.stem).seed seeded
  intro x declared
  exact plain x (List.mem_filterMap.mpr ⟨_, declared, rfl⟩)

end Context

/-- A function that enters no loop, has no scratch names and compiles has its registers numbered: each
name of the list has its number for its slot, no other slot is in use, and every line has these numbers
for its registers, whatever numbers other names are given. -/
theorem compile_numbers {settings : Settings} {f : Function} {text : String}
    (compiled : (compile settings f).outcome = .ok text)
    (loopless : ∀ b ∈ f.blocks, ∀ item ∈ b.items, item.opcode? ≠ some .forprep)
    (plain : ∀ x ∈ f.names, ¬ IsScratch x) :
    ∃ (p : Pipeline) (c d : Context) (written : List Written),
      settings.pipeline = .ok p ∧
      Context.create (p.passConfig .generate).suffix f.locals = .ok c ∧
      Assembly.assemble c f (p.passConfig .generate).storage = (d, .ok text) ∧
      d.allocator.bindings = numbered 0 f.registers ∧
      d.allocator.used = f.registers.length ∧
      f.Shows (p.passConfig .generate).storage written text ∧
      written.flatMap Written.code = c.segments (f.blocks.flatMap Block.items) ∧
      ∀ σ : String → Int, (∀ x ∈ f.registers, σ x = f.registers.idxOf x) →
        Coded σ 0 (written.flatMap Written.code) := by
  rw [outcome_compile_eq, Except.bind_eq_ok] at compiled
  obtain ⟨p, configured, ran⟩ := compiled
  obtain ⟨c, d, created, assembled⟩ := Pipeline.run_generated ran
  obtain ⟨e, written, lowered, finish, shown, code⟩ := Assembly.assemble_shows assembled
  have start := Context.create_numbered created fun x declared =>
    plain x (List.mem_append_left _ declared)
  obtain ⟨-, numbered, coded⟩ := Context.lowerAll_numbered start
    (fun item membership => by
      obtain ⟨b, block, own⟩ := List.mem_flatMap.mp membership
      exact loopless b block item own)
    (fun item membership x named => by
      obtain ⟨b, block, own⟩ := List.mem_flatMap.mp membership
      have inside : x ∈ b.names := List.mem_flatMap.mpr ⟨item, own, named⟩
      exact plain x (List.mem_append_right _ (List.mem_flatMap.mpr ⟨b, block, inside⟩)))
    (lowered .null)
  rw [← finish] at numbered coded
  refine ⟨p, c, d, written, configured, created, assembled, numbered.bindings, numbered.used, shown, code,
    fun σ numbers => ?_⟩
  rw [code]
  exact coded σ (numbered.placed numbers)

/-- A function with a declared name, a call, returns of constants and registers in turn, a step of a loop
that was never entered, and a payload. -/
def tallied : Function where
  locals := .list [.str "n"]
  consts := .list [.int 1, .str "print"]
  blocks := [
    { label := .str "entry"
      items := [.instruction { tag := .str "getfield_env", dest := some (.register (.str "p"))
                               metadata := .object [("key", .int 1)] },
                .instruction { tag := .str "add", dest := some (.register (.str "s"))
                               args := [.register (.str "n"), .register (.str "n")] },
                .instruction { tag := .str "call"
                               args := [.register (.str "p"), .register (.str "unseen")] },
                .instruction { tag := .str "return"
                               args := [.constant (.int 0), .register (.str "t"), .constant (.int 0),
                                 .register (.str "s")] }] },
    { label := .str "tail"
      items := [.instruction { tag := .str "for_loop", args := [.register (.str "i")]
                               metadata := .object [("body", .str "entry")] },
                .instruction { tag := .str "nop", metadata := .object [("raw", .str "NOP")] },
                .instruction { tag := .str "return"
                               args := [.register (.str "n"), .constant (.int 1)] }] }]

theorem compile_numbers_of_tallied :
    tallied.registers = ["n", "p", "s", "%tmp0", "t", "%tmp1", "i", "%tmp2"] ∧
      (∀ b ∈ tallied.blocks, ∀ item ∈ b.items, item.opcode? ≠ some .forprep) ∧
      (∀ x ∈ tallied.names, ¬ IsScratch x) ∧
      ∃ text, (compile {} tallied).outcome = .ok text ∧
        ∃ (p : Pipeline) (c d : Context) (written : List Written),
          Settings.pipeline {} = .ok p ∧
          Context.create (p.passConfig .generate).suffix tallied.locals = .ok c ∧
          Assembly.assemble c tallied (p.passConfig .generate).storage = (d, .ok text) ∧
          d.allocator.bindings = numbered 0 tallied.registers ∧
          d.allocator.used = tallied.registers.length ∧
          tallied.Shows (p.passConfig .generate).storage written text ∧
          written.flatMap Written.code = c.segments (tallied.blocks.flatMap Block.items) ∧
          ∀ σ : String → Int, (∀ x ∈ tallied.registers, σ x = tallied.registers.idxOf x) →
            Coded σ 0 (written.flatMap Written.code) := by
  have loopless : ∀ b ∈ tallied.blocks, ∀ item ∈ b.items, item.opcode? ≠ some .forprep := by
    decide
  have plain : ∀ x ∈ tallied.names, ¬ IsScratch x := by
    have names : tallied.names = ["n", "p", "s", "n", "n", "p", "unseen", "t", "s", "i", "n"] := rfl
    rw [names]
    decide
  have checked : Check.function tallied = .ok () := by cbv
  obtain ⟨d, text, assembled⟩ : ∃ d text, Assembly.assemble Context.declaring tallied
      (.str Assembly.defaultUpvalue) = (d, .ok text) := ⟨_, _, rfl⟩
  have compiled := compile_shipped checked Context.create_declaring assembled
  exact ⟨rfl, loopless, plain, text, compiled, compile_numbers compiled loopless plain⟩

end BlockAsm
