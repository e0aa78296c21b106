import BlockAsm.Proofs.LoopBindings

/-!
What does not depend on how registers are named. A renaming tells names apart as before and keeps
which of them have the same stem; scratch names stay as they are. Two allocators that hold the same
slots under names that a renaming pairs go on doing so, whatever is placed or laid out in both, and give
the same slots out.
-/

namespace BlockAsm

/-- Failures of one class that arose in one block. -/
inductive Failure.Alike : Failure → Failure → Prop
  | same (f : Failure) : Alike f f
  | refused {d e : Diagnostic} :
      d.kind = e.kind → d.block = e.block → Alike (.refused d) (.refused e)

theorem Failure.Alike.annotate {f g : Failure} (alike : Alike f g) (label : Value)
    (first second : Option Value) : Alike (f.annotate label first) (g.annotate label second) := by
  have placed : ∀ {d e : Diagnostic}, d.kind = e.kind → d.block = e.block →
      Alike (.refused (d.annotate label first)) (.refused (e.annotate label second)) := by
    intro d e kinds blocks
    unfold Diagnostic.annotate
    rw [blocks]
    split
    · exact .refused kinds blocks
    · exact .refused kinds rfl
  cases alike with
  | same f =>
    cases f with
    | refused d => exact placed rfl rfl
    | _ => exact .same _
  | refused kinds blocks => exact placed kinds blocks

/-- Results that a relation pairs, or failures that are alike. -/
inductive Matches {α β : Type} (R : α → β → Prop) : Except Failure α → Except Failure β → Prop
  | ok {a : α} {b : β} : R a b → Matches R (.ok a) (.ok b)
  | error {f g : Failure} : f.Alike g → Matches R (.error f) (.error g)

namespace Matches

variable {α β γ δ : Type} {R : α → β → Prop} {S : γ → δ → Prop}

theorem refl (r : Except Failure α) : Matches (· = ·) r r := by
  cases r with
  | error f => exact .error (.same f)
  | ok a => exact .ok rfl

theorem cases {r : Except Failure α} {s : Except Failure β} (matched : Matches R r s) :
    (∃ a b, r = .ok a ∧ s = .ok b ∧ R a b) ∨ ∃ f g, r = .error f ∧ s = .error g ∧ f.Alike g := by
  cases matched with
  | ok related => exact .inl ⟨_, _, rfl, rfl, related⟩
  | error alike => exact .inr ⟨_, _, rfl, rfl, alike⟩

theorem bind {r : Except Failure α} {s : Except Failure β} {f : α → Except Failure γ}
    {g : β → Except Failure δ} (first : Matches R r s)
    (second : ∀ a b, R a b → Matches S (f a) (g b)) : Matches S (r >>= f) (s >>= g) := by
  cases first with
  | ok related => exact second _ _ related
  | error alike => exact .error alike

theorem map {r : Except Failure α} {s : Except Failure β} {f : α → γ} {g : β → δ}
    (first : Matches R r s) (second : ∀ a b, R a b → S (f a) (g b)) :
    Matches S (r.map f) (s.map g) := by
  cases first with
  | ok related => exact .ok (second _ _ related)
  | error alike => exact .error alike

end Matches

namespace Table

/-- The same values in the same order, under texts that a relation pairs. -/
def Paired (R : String → String → Prop) : Table Name Int → Table Name Int → Prop :=
  List.Forall₂ fun e f => ∃ x y slot, R x y ∧ e = (.ofText x, slot) ∧ f = (.ofText y, slot)

variable {R : String → String → Prop} {t u : Table Name Int} {x y : String}

theorem Paired.get? (paired : Paired R t u) (unique : Relator.BiUnique R) (related : R x y) :
    Table.get? t (Name.ofText x).key = Table.get? u (Name.ofText y).key := by
  induction paired with
  | nil => rfl
  | cons first _ ih =>
    obtain ⟨v, w, slot, head, rfl, rfl⟩ := first
    have same : v = x ↔ w = y := Relator.rel_eq unique head related
    simp only [Table.get?, Name.keyed_key, Name.key_ofText, Value.Key.str.injEq, same] at ih ⊢
    rw [ih]

theorem Paired.set (paired : Paired R t u) (unique : Relator.BiUnique R) (related : R x y)
    (slot : Int) : Paired R (Table.set t (.ofText x) slot) (Table.set u (.ofText y) slot) := by
  induction paired with
  | nil => exact .cons ⟨x, y, slot, related, rfl, rfl⟩ .nil
  | cons first rest ih =>
    obtain ⟨v, w, held, head, rfl, rfl⟩ := first
    have same : v = x ↔ w = y := Relator.rel_eq unique head related
    simp only [Table.set, Name.keyed_key, Name.key_ofText, Value.Key.str.injEq, same]
    split
    · exact .cons ⟨v, w, slot, head, rfl, rfl⟩ rest
    · exact .cons ⟨v, w, held, head, rfl, rfl⟩ ih

theorem Paired.names (paired : Paired R t u) :
    List.Forall₂ (fun n m => ∃ x y, R x y ∧ n = .ofText x ∧ m = .ofText y) (Table.names t)
      (Table.names u) := by
  induction paired with
  | nil => exact .nil
  | cons first _ ih =>
    obtain ⟨v, w, slot, head, rfl, rfl⟩ := first
    exact .cons ⟨v, w, head, rfl, rfl⟩ ih

end Table

/-- A change of names that keeps different names apart and keeps which of them have the same stem.
Scratch names stay. -/
structure Renaming (stem : String → String) where
  names : Set String
  map : String → String
  injective : Set.InjOn map names
  stems : ∀ ⦃x⦄, x ∈ names → ∀ ⦃y⦄, y ∈ names → (stem (map x) = stem (map y) ↔ stem x = stem y)
  scratch : ∀ n, Allocator.scratchName n ∈ names
  map_scratch : ∀ n, map (Allocator.scratchName n) = Allocator.scratchName n

namespace Renaming

variable {stem : String → String} (r : Renaming stem)

def Takes (x y : String) : Prop := x ∈ r.names ∧ y = r.map x

def TakesStem (s t : String) : Prop := ∃ x ∈ r.names, s = stem x ∧ t = stem (r.map x)

theorem takes_biUnique : Relator.BiUnique r.Takes := by
  constructor
  · rintro x y _ ⟨hx, rfl⟩ ⟨hy, same⟩
    exact r.injective hx hy same
  · rintro x _ _ ⟨-, rfl⟩ ⟨-, rfl⟩
    rfl

theorem takesStem_biUnique : Relator.BiUnique r.TakesStem := by
  constructor
  · rintro _ _ _ ⟨x, hx, rfl, rfl⟩ ⟨y, hy, rfl, same⟩
    exact (r.stems hx hy).mp same
  · rintro _ _ _ ⟨x, hx, rfl, rfl⟩ ⟨y, hy, same, rfl⟩
    exact (r.stems hx hy).mpr same

def Covers (o : Operand) : Prop := ∀ x, o = .register (.str x) → x ∈ r.names

end Renaming

def Operand.rename (ρ : String → String) : Operand → Operand
  | .register (.str x) => .register (.str (ρ x))
  | o => o

theorem Operand.rename_of_not_register {o : Operand} (unnamed : ∀ x, o ≠ .register (.str x))
    (ρ : String → String) : o.rename ρ = o := by
  unfold rename
  split
  · exact absurd rfl (unnamed _)
  · rfl

theorem Operand.register?_rename {stem : String → String} {r : Renaming stem} {o : Operand}
    (covered : r.Covers o) {x : String} (known : x ∈ r.names) :
    (o.rename r.map).register? = some (r.map x) ↔ o.register? = some x := by
  rw [register?_eq_some, register?_eq_some]
  by_cases named : ∃ y, o = .register (.str y)
  · obtain ⟨y, rfl⟩ := named
    simp only [rename, register.injEq, Value.str.injEq]
    exact r.injective.eq_iff (covered y rfl) known
  · rw [rename_of_not_register (not_exists.mp named)]
    constructor <;> intro same <;> exact absurd ⟨_, same⟩ named

theorem Operand.Resolvable.rename {o : Operand} (resolvable : o.Resolvable) {ρ : String → String} :
    (o.rename ρ).Resolvable := by
  by_cases named : ∃ x, o = .register (.str x)
  · obtain ⟨x, rfl⟩ := named
    trivial
  · rwa [rename_of_not_register (not_exists.mp named)]

namespace Allocator

variable {stem : String → String} {r : Renaming stem} {a b : Allocator}

/-- The allocators hold the same slots under names and stems that the renaming pairs. -/
structure Mirrors (r : Renaming stem) (a b : Allocator) : Prop where
  stemLeft : a.stem = stem
  stemRight : b.stem = stem
  bindings : Table.Paired r.Takes a.bindings b.bindings
  groups : Table.Paired r.TakesStem a.groups b.groups
  occupied : b.occupied = a.occupied
  placeholders : b.placeholders = a.placeholders
  scratchCount : b.scratchCount = a.scratchCount

namespace Mirrors

theorem empty (r : Renaming stem) : Mirrors r { stem := stem } { stem := stem } :=
  ⟨rfl, rfl, .nil, .nil, rfl, rfl, rfl⟩

theorem lookup (m : Mirrors r a b) {x : String} (known : x ∈ r.names) :
    a.lookup (.ofText x) = b.lookup (.ofText (r.map x)) :=
  m.bindings.get? r.takes_biUnique ⟨known, rfl⟩

theorem group? (m : Mirrors r a b) {x : String} (known : x ∈ r.names) :
    a.group? (a.stem x) = b.group? (b.stem (r.map x)) := by
  rw [m.stemLeft, m.stemRight]
  exact m.groups.get? r.takesStem_biUnique ⟨x, known, rfl, rfl⟩

theorem bodySlot? (m : Mirrors r a b) {x : String} (known : x ∈ r.names) :
    a.bodySlot? x = b.bodySlot? (r.map x) := by
  rw [Allocator.bodySlot?, Allocator.bodySlot?, m.group? known]

theorem peek (m : Mirrors r a b) {x : String} (known : x ∈ r.names) :
    a.peek x = b.peek (r.map x) := by
  rw [Allocator.peek, Allocator.peek, m.lookup known, m.bodySlot? known]

theorem nextFree (m : Mirrors r a b) : a.nextFree = b.nextFree := by
  rw [Allocator.nextFree, Allocator.nextFree, m.occupied]

theorem entrySlot (m : Mirrors r a b) {x : String} (known : x ∈ r.names) :
    a.entrySlot x = b.entrySlot (r.map x) := by
  rw [Allocator.entrySlot, Allocator.entrySlot, m.lookup known, m.nextFree]

theorem withCount (m : Mirrors r a b) (count : Nat) :
    Mirrors r { a with scratchCount := count } { b with scratchCount := count } :=
  ⟨m.stemLeft, m.stemRight, m.bindings, m.groups, m.occupied, m.placeholders, rfl⟩

theorem bind (m : Mirrors r a b) {x : String} (known : x ∈ r.names) (slot : Int) :
    Mirrors r (a.bind (.ofText x) slot) (b.bind (.ofText (r.map x)) slot) where
  stemLeft := m.stemLeft
  stemRight := m.stemRight
  bindings := m.bindings.set r.takes_biUnique ⟨known, rfl⟩ slot
  groups := m.groups
  occupied := by simp only [Allocator.bind, occupy, m.occupied]
  placeholders := by simp only [Allocator.bind, m.placeholders]
  scratchCount := m.scratchCount

theorem force (m : Mirrors r a b) {x : String} (known : x ∈ r.names) (slot : Int) :
    Mirrors r (a.force (.ofText x) slot) (b.force (.ofText (r.map x)) slot) := by
  unfold Allocator.force
  rw [m.lookup known]
  split
  · exact m
  · exact m.bind known slot

theorem hold (m : Mirrors r a b) (slot : Int) : Mirrors r (a.hold slot) (b.hold slot) := by
  unfold Allocator.hold
  rw [m.occupied]
  split
  · exact m
  · exact ⟨m.stemLeft, m.stemRight, m.bindings, m.groups, rfl, by rw [m.placeholders],
      m.scratchCount⟩

theorem reserve (m : Mirrors r a b) (start : Int) (length : Nat) :
    Mirrors r (a.reserve start length) (b.reserve start length) := by
  induction length generalizing a b start with
  | zero => exact m
  | succ length ih => exact ih (m.hold start) (start + 1)

theorem setGroup (m : Mirrors r a b) {x : String} (known : x ∈ r.names) (base : Int) :
    Mirrors r (a.setGroup (.ofText (stem x)) base) (b.setGroup (.ofText (stem (r.map x))) base) where
  stemLeft := m.stemLeft
  stemRight := m.stemRight
  bindings := m.bindings
  groups := m.groups.set r.takesStem_biUnique ⟨x, known, rfl, rfl⟩ base
  occupied := m.occupied
  placeholders := m.placeholders
  scratchCount := m.scratchCount

theorem pin (m : Mirrors r a b) {o : Operand} (covered : r.Covers o) (resolvable : o.Resolvable)
    (slot : Int) : Mirrors r (a.pin o slot) (b.pin (o.rename r.map) slot) := by
  cases o with
  | register v =>
    cases v with
    | str x => exact m.force (covered x rfl) slot
    | _ => exact False.elim resolvable
  | _ => exact m

theorem place (m : Mirrors r a b) {x : String} (known : x ∈ r.names) :
    (a.place x).1 = (b.place (r.map x)).1 ∧ Mirrors r (a.place x).2 (b.place (r.map x)).2 := by
  cases found : a.lookup (.ofText x) with
  | some slot =>
    have mirrored := (m.lookup known).symm.trans found
    rw [place_of_lookup found, place_of_lookup mirrored]
    exact ⟨rfl, m⟩
  | none =>
    have mirrored := (m.lookup known).symm.trans found
    rw [place_of_unbound found, place_of_unbound mirrored, m.bodySlot? known, m.nextFree]
    exact ⟨rfl, m.bind known _⟩

theorem firstScratch (m : Mirrors r a b) (tries n : Nat) :
    Allocator.firstScratch a.bindings tries n = Allocator.firstScratch b.bindings tries n := by
  induction tries generalizing n with
  | zero => rfl
  | succ tries ih =>
    have bound : Table.has a.bindings (Name.ofText (scratchName n)).key =
        Table.has b.bindings (Name.ofText (scratchName n)).key := by
      rw [Table.has, Table.has,
        m.bindings.get? r.takes_biUnique ⟨r.scratch n, (r.map_scratch n).symm⟩]
    rw [Allocator.firstScratch, Allocator.firstScratch, bound, ih]

theorem scratch (m : Mirrors r a b) :
    a.scratch.1 = b.scratch.1 ∧ Mirrors r a.scratch.2 b.scratch.2 := by
  unfold Allocator.scratch
  simp only
  have lengths : a.bindings.length = b.bindings.length := m.bindings.length_eq
  rw [m.firstScratch, m.scratchCount, lengths]
  have placed := (m.withCount (Allocator.firstScratch b.bindings b.bindings.length
    a.scratchCount + 1)).place (r.scratch (Allocator.firstScratch b.bindings b.bindings.length
      a.scratchCount))
  rwa [r.map_scratch] at placed

end Mirrors

/-- A name that is no text is never bound, and whether it can be one at all is seen from itself. -/
theorem lookupValue_of_not_text {v : Value} (nontext : ∀ x, v ≠ .str x) :
    (∃ f, ∀ a : Allocator, a.lookupValue v = .error f) ∨
      ∀ a : Allocator, a.WellFormed → a.lookupValue v = .ok none := by
  cases named : Name.of? v with
  | none =>
    left
    exact ⟨.fault (.nameNotScalar v), fun a => by simp only [lookupValue, nameOf, named, Except.map]⟩
  | some n =>
    right
    intro a wf
    have unbound : a.lookup n = none := by
      cases found : a.lookup n with
      | none => rfl
      | some slot =>
        obtain ⟨x, rfl⟩ := wf.eq_str_of_lookup named found
        exact absurd rfl (nontext x)
    simp only [lookupValue, nameOf, named, Except.map, unbound]

theorem nameText_of_not_text {v : Value} (nontext : ∀ x, v ≠ .str x) :
    nameText v = .error (.fault (.nameNotText v)) := by
  cases v with
  | str x => exact absurd rfl (nontext x)
  | _ => rfl

theorem exists_placeValue_error {v : Value} (nontext : ∀ x, v ≠ .str x) :
    ∃ f, ∀ a : Allocator, a.WellFormed → a.placeValue v = .error f ∧
      a.livesAt (.register v) = .error f := by
  rcases lookupValue_of_not_text nontext with ⟨f, failed⟩ | unbound
  · refine ⟨f, fun a _ => ?_⟩
    simp only [placeValue, livesAt, peekValue, failed, Except.map, and_self]
  · refine ⟨.fault (.nameNotText v), fun a wf => ?_⟩
    simp only [placeValue, livesAt, peekValue, unbound a wf, nameText_of_not_text nontext,
      Except.map, and_self]

namespace Mirrors

theorem resolve (m : Mirrors r a b) (left : a.WellFormed) (right : b.WellFormed) {o : Operand}
    (covered : r.Covers o) : Matches (fun p q => p.1 = q.1 ∧ Mirrors r p.2 q.2) (a.resolve o)
      (b.resolve (o.rename r.map)) := by
  cases o with
  | constant index => exact .ok ⟨rfl, m⟩
  | upvalue index => exact .ok ⟨rfl, m⟩
  | other v => exact .error (.same _)
  | register v =>
    by_cases text : ∃ x, v = .str x
    · obtain ⟨x, rfl⟩ := text
      obtain ⟨slots, placed⟩ := m.place (covered x rfl)
      simp only [Operand.rename, Allocator.resolve, placeValue_str]
      exact .ok ⟨by rw [slots], placed⟩
    · obtain ⟨f, failed⟩ := exists_placeValue_error (not_exists.mp text)
      rw [Operand.rename_of_not_register (by simpa using text)]
      simp only [Allocator.resolve, (failed a left).1, (failed b right).1]
      exact .error (.same f)

theorem resolveAll (m : Mirrors r a b) (left : a.WellFormed) (right : b.WellFormed)
    {operands : List Operand} (covered : ∀ o ∈ operands, r.Covers o) :
    Mirrors r (a.resolveAll operands).1 (b.resolveAll (operands.map (Operand.rename r.map))).1 ∧
      Matches (· = ·) (a.resolveAll operands).2
        (b.resolveAll (operands.map (Operand.rename r.map))).2 := by
  induction operands generalizing a b with
  | nil => exact ⟨m, .refl _⟩
  | cons o rest ih =>
    have others : ∀ p ∈ rest, r.Covers p := fun p hp => covered p (by simp [hp])
    rw [List.map_cons, Allocator.resolveAll, Allocator.resolveAll]
    rcases (m.resolve left right (covered o (by simp))).cases with
      ⟨⟨t, c⟩, ⟨_, d⟩, first, second, rfl, next⟩ | ⟨f, g, first, second, alike⟩
    · obtain ⟨mirrored, matched⟩ := ih next (left.grows (resolve_grows first))
        (right.grows (resolve_grows second)) others
      rw [first, second]
      rcases here : c.resolveAll rest with ⟨c', answer⟩
      rcases there : d.resolveAll (rest.map (Operand.rename r.map)) with ⟨d', answer'⟩
      simp only [here, there] at mirrored matched ⊢
      cases matched with
      | ok same => exact ⟨mirrored, .ok (by rw [same])⟩
      | error alike => exact ⟨mirrored, .error alike⟩
    · rw [first, second]
      exact ⟨m, .error alike⟩

theorem home (m : Mirrors r a b) {o : Operand} (covered : r.Covers o) :
    a.home o = b.home (o.rename r.map) := by
  cases o with
  | register v =>
    cases v with
    | str x => simp only [Operand.rename, Allocator.home, m.peek (covered x rfl)]
    | _ => rfl
  | _ => rfl

theorem livesAt (m : Mirrors r a b) (left : a.WellFormed) (right : b.WellFormed) {o : Operand}
    (covered : r.Covers o) : Matches (· = ·) (a.livesAt o) (b.livesAt (o.rename r.map)) := by
  cases o with
  | constant index => exact .refl _
  | upvalue index => exact .refl _
  | other v => exact .refl _
  | register v =>
    by_cases text : ∃ x, v = .str x
    · obtain ⟨x, rfl⟩ := text
      have there : (Operand.register (.str (r.map x))).Resolvable := trivial
      rw [a.livesAt_of_resolvable (o := .register (.str x)) trivial, m.home covered]
      rw [Operand.rename, b.livesAt_of_resolvable there]
      exact .refl _
    · obtain ⟨f, failed⟩ := exists_placeValue_error (not_exists.mp text)
      rw [Operand.rename_of_not_register (by simpa using text), (failed a left).2,
        (failed b right).2]
      exact .error (.same f)

end Mirrors

/-- The line of a copy tells registers from constants, and not one register from another. -/
theorem copyTo_rename (ρ : String → String) (o : Operand) (target : Int) (token : Option Token) :
    (copyTo (o.rename ρ) target token).map Context.copyLine =
      (copyTo o target token).map Context.copyLine := by
  by_cases named : ∃ x, o = .register (.str x)
  · obtain ⟨x, rfl⟩ := named
    unfold copyTo
    split
    · rfl
    · split <;> rfl
    · rfl
  · rw [Operand.rename_of_not_register (not_exists.mp named)]

theorem rangeNames_rename (ρ : String → String) (operands : List Operand) :
    Matches (fun _ _ => True) (rangeNames operands)
      (rangeNames (operands.map (Operand.rename ρ))) := by
  induction operands with
  | nil => exact .ok trivial
  | cons o rest ih =>
    rw [List.map_cons]
    by_cases named : ∃ x, o = .register (.str x)
    · obtain ⟨x, rfl⟩ := named
      exact ih.map fun _ _ _ => trivial
    · rw [Operand.rename_of_not_register (not_exists.mp named)]
      cases o with
      | register v =>
        simp only [rangeNames]
        cases nameOf v with
        | ok n => exact ih.map fun _ _ _ => trivial
        | error f => exact .error (.same f)
      | _ => exact ih

namespace Mirrors

theorem copies (m : Mirrors r a b) (left : a.WellFormed) (right : b.WellFormed)
    (controls : List (Operand × Int)) (covered : ∀ p ∈ controls, r.Covers p.1) :
    Matches (fun first second => first.map Context.copyLine = second.map Context.copyLine)
      (a.copies controls) (b.copies (controls.map fun p => (p.1.rename r.map, p.2))) := by
  induction controls with
  | nil => exact .ok rfl
  | cons p rest ih =>
    rw [List.map_cons]
    simp only [Allocator.copies]
    rcases (m.livesAt left right (covered p (by simp))).cases with
      ⟨t, _, first, second, rfl⟩ | ⟨f, g, first, second, alike⟩
    · rw [first, second]
      refine (ih fun q hq => covered q (by simp [hq])).map fun xs ys same => ?_
      rw [List.map_append, List.map_append, copyTo_rename, same]
    · rw [first, second]
      exact .error alike

theorem seated (m : Mirrors r a b) {index : String} {limit step : Operand}
    (known : index ∈ r.names) (cl : r.Covers limit) (cs : r.Covers step) (hl : limit.Resolvable)
    (hs : step.Resolvable) : Mirrors r (a.seated index limit step)
      (b.seated (r.map index) (limit.rename r.map) (step.rename r.map)) := by
  unfold Allocator.seated
  rw [m.stemLeft, m.stemRight, ← m.entrySlot known]
  exact ((((m.reserve _ groupSize).force known _).pin cl hl _).pin cs hs _).setGroup known _

theorem gather (m : Mirrors r a b) {names others : List Name}
    (paired : List.Forall₂ (fun n k => ∃ x y, r.Takes x y ∧ n = .ofText x ∧ k = .ofText y) names
      others) {index : String} (known : index ∈ r.names) {range mirrored : List Name}
    (ranged : ∀ x ∈ r.names,
      (Name.ofText x).among range = (Name.ofText (r.map x)).among mirrored) (slot : Int) :
    Mirrors r (a.gather (stem index) range slot names).1
      (b.gather (stem (r.map index)) mirrored slot others).1 := by
  induction paired generalizing a b with
  | nil => exact m
  | cons first _ ih =>
    obtain ⟨x, _, ⟨hx, rfl⟩, rfl, rfl⟩ := first
    simp only [Allocator.gather, Name.text?_ofText, ranged x hx, m.stemLeft, m.stemRight,
      r.stems hx known]
    split
    · exact ih m
    · split
      · exact ih (m.force hx slot)
      · exact ih m

theorem controls (m : Mirrors r a b) {x : String} (known : x ∈ r.names) (limit step : Operand) :
    b.controls (r.map x) (limit.rename r.map) (step.rename r.map) =
      (a.controls x limit step).map fun p => (p.1.rename r.map, p.2) := by
  simp only [Allocator.controls, List.map_cons, List.map_nil, m.entrySlot known, Operand.rename]

theorem among_range {limit step : Operand} (cl : r.Covers limit) (cs : r.Covers step)
    {range mirrored : List Name}
    (ranged : rangeNames [limit, step] = .ok range)
    (rangedToo : rangeNames [limit.rename r.map, step.rename r.map] = .ok mirrored) :
    ∀ x ∈ r.names, (Name.ofText x).among range = (Name.ofText (r.map x)).among mirrored := by
  intro x known
  rw [Bool.eq_iff_iff, among_rangeNames ranged, among_rangeNames rangedToo]
  simp only [List.mem_cons, List.not_mem_nil, or_false, exists_eq_or_imp, exists_eq_left,
    Operand.refers_ofText, Operand.register?_rename cl known, Operand.register?_rename cs known]

theorem layOut_of_resolvable (m : Mirrors r a b) (left : a.WellFormed) (right : b.WellFormed)
    {x : String} {limit step : Operand} (known : x ∈ r.names) (cl : r.Covers limit)
    (cs : r.Covers step) (hl : limit.Resolvable) (hs : step.Resolvable) :
    Mirrors r (a.layOut (.register (.str x)) limit step).1
        (b.layOut (.register (.str (r.map x))) (limit.rename r.map) (step.rename r.map)).1 ∧
      Matches (fun first second => first.base = second.base ∧
          first.copies.map Context.copyLine = second.copies.map Context.copyLine)
        (a.layOut (.register (.str x)) limit step).2.2
        (b.layOut (.register (.str (r.map x))) (limit.rename r.map) (step.rename r.map)).2.2 := by
  obtain ⟨c, range, ranged, gathered, laid, -⟩ := left.layOut x hl hs
  obtain ⟨d, mirrored, rangedToo, gatheredToo, laidToo, -⟩ :=
    right.layOut (r.map x) hl.rename hs.rename
  have seated := m.seated known cl cs hl hs
  have moved := seated.gather seated.bindings.names known
    (among_range cl cs ranged rangedToo) (a.entrySlot x + 3)
  have index : r.Covers (.register (.str x)) := fun y same => by cases same; exact known
  have lines := m.copies left right (a.controls x limit step)
    (a.forall_controls.mpr ⟨index, cl, cs⟩)
  rw [← m.controls known, copies_of_resolvable, copies_of_resolvable] at lines
  · cases lines with
    | ok lines =>
      rw [m.stemLeft] at gathered
      rw [m.stemRight, ← m.entrySlot known] at gatheredToo
      rw [laid, laidToo]
      refine ⟨?_, .ok ⟨m.entrySlot known, lines⟩⟩
      have first := congrArg Prod.fst gathered
      have second := congrArg Prod.fst gatheredToo
      exact first ▸ second ▸ moved
  · exact b.forall_controls.mpr ⟨trivial, hl.rename, hs.rename⟩
  · exact a.forall_controls.mpr ⟨trivial, hl, hs⟩

/-- A loop is laid out in both with the same slots and lines, or in neither. -/
theorem layOut (m : Mirrors r a b) (left : a.WellFormed) (right : b.WellFormed)
    {index limit step : Operand} (ci : r.Covers index) (cl : r.Covers limit) (cs : r.Covers step) :
    Mirrors r (a.layOut index limit step).1
        (b.layOut (index.rename r.map) (limit.rename r.map) (step.rename r.map)).1 ∧
      Matches (fun first second => first.base = second.base ∧
          first.copies.map Context.copyLine = second.copies.map Context.copyLine)
        (a.layOut index limit step).2.2
        (b.layOut (index.rename r.map) (limit.rename r.map) (step.rename r.map)).2.2 := by
  by_cases named : ∃ x, index = .register (.str x)
  · obtain ⟨x, rfl⟩ := named
    have known := ci x rfl
    have range := rangeNames_rename r.map [limit, step]
    rw [Operand.rename]
    rcases range.cases with ⟨ns, ks, first, second, -⟩ | ⟨f, g, first, second, alike⟩
    · have slots := m.entrySlot known
      have reserved := m.reserve (a.entrySlot x) groupSize
      have wfLeft := left.reserve (left.entrySlot_bounds x).1 (left.entrySlot_bounds x).2 groupSize
      have wfRight := right.reserve (right.entrySlot_bounds (r.map x)).1
        (right.entrySlot_bounds (r.map x)).2 groupSize
      have copied := reserved.copies wfLeft (slots ▸ wfRight) (a.controls x limit step)
        (a.forall_controls.mpr ⟨ci, cl, cs⟩)
      rw [← m.controls known] at copied
      rcases copied.cases with ⟨_, _, done, -⟩ | ⟨f, g, failed, failedToo, alike⟩
      · have resolvable := a.forall_controls.mp (wfLeft.resolvable_of_copies done)
        exact m.layOut_of_resolvable left right known cl cs resolvable.2.1 resolvable.2.2
      · rw [left.layOut_of_copies first failed, right.layOut_of_copies second (slots ▸ failedToo)]
        exact ⟨slots ▸ reserved, .error alike⟩
    · simp only [List.map_cons, List.map_nil] at second
      simp only [Allocator.layOut, layOutNamed, first, second]
      exact ⟨m, .error alike⟩
  · rw [Operand.rename_of_not_register (not_exists.mp named)]
    cases index with
    | register v =>
      cases v with
      | str x => exact absurd ⟨x, rfl⟩ named
      | _ => exact ⟨m, .error (.same _)⟩
    | _ => exact ⟨m, .error (.same _)⟩

end Mirrors

end Allocator

end BlockAsm
