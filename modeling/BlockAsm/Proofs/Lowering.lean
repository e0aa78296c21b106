import BlockAsm.Proofs.Recipes
import BlockAsm.Proofs.Slots

/-!
What lowering an item does to its context. The allocator only grows, by placing names and scratch
registers, unless the item enters a loop, in which case the loop's group is laid out. Lines are only
added at the end. Everything that holds of a run is got from these facts, never from the recipes.
-/

namespace BlockAsm

namespace Item

def opcode? : Item → Option Opcode
  | .instruction i =>
    match i.opcode? with
    | .ok o => o
    | .error _ => none
  | .other _ => none

def args : Item → List Operand
  | .instruction i => i.args
  | .other _ => []

def index? (item : Item) : Option String :=
  match item.args with
  | .register (.str name) :: _ => some name
  | _ => none

theorem opcode?_eq_some {item : Item} {o : Opcode} (h : item.opcode? = some o) :
    ∃ i, item = .instruction i ∧ i.opcode? = .ok (some o) := by
  cases item with
  | other v => cases h
  | instruction i =>
    simp only [opcode?] at h
    split at h
    · rename_i found tagged
      exact ⟨i, rfl, by rw [tagged, h]⟩
    · cases h

end Item

namespace Allocator

/-- The second allocator comes from the first by placing names and scratch registers. -/
inductive Grows (a : Allocator) : Allocator → Prop
  | refl : Grows a a
  | place {b : Allocator} (name : String) : Grows a b → Grows a (b.place name).2
  | scratch {b : Allocator} : Grows a b → Grows a b.scratch.2

namespace Grows

variable {a b c : Allocator}

theorem trans (first : Grows a b) (second : Grows b c) : Grows a c := by
  induction second with
  | refl => exact first
  | place name _ ih => exact ih.place name
  | scratch _ ih => exact ih.scratch

/-- What holds at the start and is kept by placing a name, whatever the count of scratch names is, holds
in the end. -/
theorem keeps {P : Allocator → Prop} (grown : Grows a b) (start : P a)
    (place : ∀ c x, P c → P (c.place x).2)
    (count : ∀ (c : Allocator) n, P c → P { c with scratchCount := n }) : P b := by
  induction grown with
  | refl => exact start
  | place name _ ih => exact place _ name ih
  | @scratch b _ ih =>
    obtain ⟨n, placed⟩ := b.scratch_eq
    rw [placed]
    exact place _ _ (count b n ih)

theorem sameGroups (grown : Grows a b) : SameGroups a b :=
  grown.keeps (.refl a) (fun c x same => same.trans (c.sameGroups_place x))
    fun _ _ same => ⟨same.stem, same.groups⟩

theorem lookup (grown : Grows a b) {name : Name} {slot : Int} (bound : a.lookup name = some slot) :
    b.lookup name = some slot :=
  grown.keeps (P := fun c => c.lookup name = some slot) bound
    (fun _ x found => lookup_place_of_lookup x found) fun _ _ found => found

end Grows

theorem placeValue_grows {a b : Allocator} {name : Value} {slot : Int}
    (h : a.placeValue name = .ok (slot, b)) : Grows a b := by
  unfold placeValue at h
  split at h
  · cases h
  · cases h
    exact .refl
  · cases name with
    | str s =>
      simp only [nameText, Except.map, Except.ok.injEq] at h
      have placed : (a.place s).2 = b := congrArg Prod.snd h
      exact placed ▸ .place s .refl
    | _ => simp [nameText, Except.map] at h

theorem resolve_grows {a b : Allocator} {o : Operand} {t : Token}
    (h : a.resolve o = .ok (t, b)) : Grows a b := by
  cases o with
  | constant index =>
    cases h
    exact .refl
  | upvalue index =>
    cases h
    exact .refl
  | other v => simp [resolve, refuse] at h
  | register name =>
    simp only [resolve] at h
    split at h
    · rename_i slot c placed
      cases h
      exact placeValue_grows placed
    · cases h

theorem resolveAll_grows (a : Allocator) (operands : List Operand) :
    Grows a (a.resolveAll operands).1 := by
  induction operands generalizing a with
  | nil => exact .refl
  | cons o rest ih =>
    unfold resolveAll
    split
    · exact .refl
    · rename_i t b resolved
      have further := ih b
      split <;> rename_i c _ resolvedRest <;> rw [resolvedRest] at further <;>
        exact (resolve_grows resolved).trans further

end Allocator

namespace Context

open Allocator

/-- What becomes of one operand that is returned: its token and the context after it. -/
def returnStep (c : Context) : Operand → Except Failure (Token × Context)
  | .constant index =>
    .ok (.register c.allocator.scratch.1, (c.withAllocator c.allocator.scratch.2).writeCode .loadk
      [.register c.allocator.scratch.1, .constant index] [])
  | o => (c.allocator.resolve o).map fun r => (r.1, c.withAllocator r.2)

theorem returnStep_of_varying {o : Operand} (varying : ∀ index, o ≠ .constant index) (c : Context) :
    c.returnStep o = (c.allocator.resolve o).map fun r => (r.1, c.withAllocator r.2) := by
  cases o with
  | constant index => exact absurd rfl (varying index)
  | _ => rfl

theorem resolveReturned_cons (c : Context) (o : Operand) (rest : List Operand) :
    c.resolveReturned (o :: rest) =
      match c.returnStep o with
      | .error f => (c, .error f)
      | .ok (t, d) => ((d.resolveReturned rest).1, (d.resolveReturned rest).2.map (t :: ·)) := by
  by_cases constant : ∃ index, o = .constant index
  · obtain ⟨index, rfl⟩ := constant
    simp only [resolveReturned, returnStep]
    split <;> rename_i others <;> rw [others] <;> rfl
  · rw [returnStep_of_varying (not_exists.mp constant), resolveReturned]
    · cases c.allocator.resolve o with
      | error f => rfl
      | ok r =>
        simp only [Except.map]
        split <;> rename_i others <;> rw [others]
    · exact fun index same => constant ⟨index, same⟩

theorem resolveReturned_cons_eq_ok {c d : Context} {o : Operand} {rest : List Operand}
    {tokens : List Token} (resolved : c.resolveReturned (o :: rest) = (d, .ok tokens)) :
    ∃ t e ts, c.returnStep o = .ok (t, e) ∧ e.resolveReturned rest = (d, .ok ts) ∧ tokens = t :: ts := by
  rw [resolveReturned_cons] at resolved
  split at resolved
  · cases resolved
  · rename_i t e step
    obtain ⟨rfl, mapped⟩ := Prod.mk.inj resolved
    obtain ⟨ts, others, rfl⟩ := Except.map_eq_ok.mp mapped
    exact ⟨t, e, ts, step, Prod.ext rfl others, rfl⟩

/-- An operand that is no constant is returned as it is resolved. -/
theorem returnStep_eq_ok {c d : Context} {o : Operand} {t : Token}
    (varying : ∀ index, o ≠ .constant index) (h : c.returnStep o = .ok (t, d)) :
    ∃ a, c.allocator.resolve o = .ok (t, a) ∧ d = c.withAllocator a := by
  rw [returnStep_of_varying varying, Except.map_eq_ok] at h
  obtain ⟨r, resolved, same⟩ := h
  cases same
  exact ⟨r.2, resolved, rfl⟩

theorem returnStep_grows {c d : Context} {o : Operand} {t : Token}
    (h : c.returnStep o = .ok (t, d)) : Grows c.allocator d.allocator := by
  by_cases constant : ∃ index, o = .constant index
  · obtain ⟨index, rfl⟩ := constant
    cases h
    exact .scratch .refl
  · obtain ⟨a, resolved, rfl⟩ := returnStep_eq_ok (not_exists.mp constant) h
    exact resolve_grows resolved

theorem returnStep_lines {c d : Context} {o : Operand} {t : Token}
    (h : c.returnStep o = .ok (t, d)) : c.lines <+: d.lines := by
  by_cases constant : ∃ index, o = .constant index
  · obtain ⟨index, rfl⟩ := constant
    cases h
    exact List.prefix_append _ _
  · obtain ⟨a, -, rfl⟩ := returnStep_eq_ok (not_exists.mp constant) h
    exact List.prefix_rfl

theorem resolveReturned_grows (c : Context) (operands : List Operand) :
    Grows c.allocator (c.resolveReturned operands).1.allocator := by
  induction operands generalizing c with
  | nil => exact .refl
  | cons o rest ih =>
    rw [resolveReturned_cons]
    split
    · exact .refl
    · rename_i t d first
      exact (returnStep_grows first).trans (ih d)

theorem stepLoop_grows (c : Context) (index : Operand) (body : Value) :
    Grows c.allocator (c.stepLoop index body).1.allocator := by
  unfold stepLoop
  split
  · exact .refl
  · exact .refl
  · split
    · exact .refl
    · rename_i t a resolved
      exact resolve_grows resolved

/-- Lowering grows the allocator or lays out the group of a loop that is entered. -/
theorem lower_cases (c : Context) (item : Item) :
    Grows c.allocator (c.lower item).1.allocator ∨
      ∃ index limit step target rest, item.opcode? = some .forprep ∧
        item.args = index :: limit :: step :: rest ∧
        c.lower item = c.enterLoop index limit step target := by
  cases item with
  | other v => exact .inl .refl
  | instruction i =>
    simp only [lower, Item.opcode?, Item.args]
    rcases i.recipe_kinds with ⟨operands, why, made⟩ | ⟨o, operands, immediates, -, made⟩ |
      ⟨-, made⟩ | ⟨tagged, index, limit, step, target, rest, given, made⟩ |
      ⟨-, index, body, rest, -, made⟩ | ⟨-, payload, made⟩
    · left
      have grown := c.allocator.resolveAll_grows operands
      rw [made, perform]
      split <;> rename_i a _ resolved <;> rw [resolved] at grown <;> exact grown
    · left
      have grown := c.allocator.resolveAll_grows operands
      rw [made, perform]
      split <;> rename_i a _ resolved <;> rw [resolved] at grown <;> exact grown
    · left
      have grown := c.resolveReturned_grows i.args
      rw [made, perform]
      split <;> rename_i d _ resolved <;> rw [resolved] at grown <;> exact grown
    · right
      exact ⟨index, limit, step, target, rest, by rw [tagged], given, by rw [made, perform]⟩
    · left
      rw [made, perform]
      exact c.stepLoop_grows index body
    · left
      rw [made, perform]
      exact .refl

theorem perform_abort_ne_ok (c : Context) (operands : List Operand) (why : Failure) :
    (c.perform (.abort operands why)).2 ≠ .ok () := by
  simp only [perform]
  split <;> exact nofun

theorem lower_of_forprep {c : Context} {item : Item} (tagged : item.opcode? = some .forprep)
    (succeeded : (c.lower item).2 = .ok ()) :
    ∃ index limit step target rest, item.args = index :: limit :: step :: rest ∧
      c.lower item = c.enterLoop index limit step target := by
  obtain ⟨i, rfl, opcode⟩ := Item.opcode?_eq_some tagged
  rw [lower] at succeeded ⊢
  rcases Instruction.recipe_cases opcode with ⟨why, refused⟩ | settled
  · rw [refused] at succeeded
    exact absurd succeeded (c.perform_abort_ne_ok _ _)
  · obtain ⟨index, limit, step, target, rest, given, made⟩ := Instruction.enterRecipe_eq_ok settled
    exact ⟨index, limit, step, target, rest, given, by rw [made, perform]⟩

theorem lower_of_forloop {c : Context} {item : Item} (tagged : item.opcode? = some .forloop)
    (succeeded : (c.lower item).2 = .ok ()) :
    ∃ index body rest, item.args = index :: rest ∧ c.lower item = c.stepLoop index body := by
  obtain ⟨i, rfl, opcode⟩ := Item.opcode?_eq_some tagged
  rw [lower] at succeeded ⊢
  rcases Instruction.recipe_cases opcode with ⟨why, refused⟩ | settled
  · rw [refused] at succeeded
    exact absurd succeeded (c.perform_abort_ne_ok _ _)
  · obtain ⟨index, body, rest, given, -, made⟩ := Instruction.stepRecipe_eq_ok settled
    exact ⟨index, body, rest, given, by rw [made, perform]⟩

theorem resolveReturned_lines (c : Context) (operands : List Operand) :
    c.lines <+: (c.resolveReturned operands).1.lines := by
  induction operands generalizing c with
  | nil => exact List.prefix_rfl
  | cons o rest ih =>
    rw [resolveReturned_cons]
    split
    · exact List.prefix_rfl
    · rename_i t d first
      exact (returnStep_lines first).trans (ih d)

theorem perform_lines (c : Context) (r : Recipe) : c.lines <+: (c.perform r).1.lines := by
  cases r with
  | line o operands immediates =>
    simp only [perform]
    split
    · exact List.prefix_append _ _
    · exact List.prefix_rfl
  | abort operands why =>
    simp only [perform]
    split <;> exact List.prefix_rfl
  | giveBack operands =>
    have kept := c.resolveReturned_lines operands
    simp only [perform]
    split <;> rename_i d _ resolved <;> rw [resolved] at kept
    · exact kept.trans (List.prefix_append _ _)
    · exact kept
  | enterLoop index limit step target =>
    simp only [perform, enterLoop]
    split
    · exact List.prefix_rfl
    · exact List.prefix_append _ _
  | stepLoop index body =>
    simp only [perform, stepLoop]
    split
    · exact List.prefix_rfl
    · exact List.prefix_append _ _
    · split
      · exact List.prefix_rfl
      · exact List.prefix_append _ _
  | verbatim payload => exact List.prefix_append _ _

def emitted (c : Context) (item : Item) : List Line := (c.lower item).1.lines.drop c.lines.length

theorem lower_lines (c : Context) (item : Item) :
    (c.lower item).1.lines = c.lines ++ c.emitted item := by
  have kept : c.lines <+: (c.lower item).1.lines := by
    cases item with
    | instruction i => exact c.perform_lines i.recipe
    | other v => exact List.prefix_rfl
  exact (List.prefix_iff_eq_append.mp kept).symm

theorem emitted_eq {c : Context} {item : Item} {lines : List Line}
    (h : (c.lower item).1.lines = c.lines ++ lines) : c.emitted item = lines := by
  rw [emitted, h, List.drop_left]

/-- Lowers items one after the other, past those that fail. -/
def lowerEach (c : Context) (items : List Item) : Context :=
  items.foldl (fun d item => (d.lower item).1) c

@[simp] theorem lowerEach_nil (c : Context) : c.lowerEach [] = c := rfl

@[simp] theorem lowerEach_cons (c : Context) (item : Item) (items : List Item) :
    c.lowerEach (item :: items) = (c.lower item).1.lowerEach items := rfl

theorem lowerEach_append (c : Context) (first second : List Item) :
    c.lowerEach (first ++ second) = (c.lowerEach first).lowerEach second :=
  List.foldl_append

/-- What holds at the start of a run and is kept by each of its steps holds at its end. -/
theorem lowerEach_invariant {c : Context} {items : List Item} {P : Context → Prop} (start : P c)
    (step : ∀ first item, first ++ [item] <+: items → P (c.lowerEach first) →
      P ((c.lowerEach first).lower item).1) : P (c.lowerEach items) := by
  suffices ∀ first, first <+: items → P (c.lowerEach first) from this items List.prefix_rfl
  intro first
  induction first using List.reverseRecOn with
  | nil => exact fun _ => start
  | append_singleton first item ih =>
    intro reached
    have before := ih ((List.prefix_append first [item]).trans reached)
    rw [lowerEach_append]
    exact step first item reached before

/-- Items that are lowered one after the other, each beside the lines it adds. -/
def segments (c : Context) : List Item → List (Item × List Line)
  | [] => []
  | item :: rest => (item, c.emitted item) :: (c.lower item).1.segments rest

theorem map_fst_segments (c : Context) (items : List Item) :
    (c.segments items).map Prod.fst = items := by
  induction items generalizing c with
  | nil => rfl
  | cons item rest ih => rw [segments, List.map_cons, ih]

theorem lowerEach_lines (c : Context) (items : List Item) :
    (c.lowerEach items).lines = c.lines ++ (c.segments items).flatMap Prod.snd := by
  induction items generalizing c with
  | nil => simp [segments]
  | cons item rest ih =>
    rw [lowerEach_cons, ih, lower_lines, segments, List.flatMap_cons, List.append_assoc]

/-- A block that is lowered without a failure is lowered item by item. -/
theorem lowerAll_ok {c d : Context} {label : Value} {items : List Item}
    (h : c.lowerAll label items = (d, .ok ())) :
    d = c.lowerEach items ∧ ∀ first item second, items = first ++ item :: second →
      ((c.lowerEach first).lower item).2 = .ok () := by
  induction items generalizing c with
  | nil =>
    cases h
    exact ⟨rfl, fun first item second split => by simp at split⟩
  | cons head tail ih =>
    unfold lowerAll at h
    split at h
    · rename_i e lowered
      obtain ⟨last, each⟩ := ih h
      refine ⟨by rw [last, lowerEach_cons, lowered], ?_⟩
      intro first item second split
      cases first with
      | nil =>
        cases split
        rw [lowerEach_nil, lowered]
      | cons other first =>
        cases split
        rw [lowerEach_cons, lowered]
        exact each first item second rfl
    · cases h

end Context

end BlockAsm
