import BlockAsm.Proofs.Acceptance
import BlockAsm.Proofs.Compiled

/-!
The verdict on a function whose parts are of the kinds that they are declared to be. Compiling it never
ends in a fault: there is a text, or one diagnostic. The diagnostic is the first of what the checks find
in labels and tags, or if they find nothing, the first objection to an instruction, in the order of
blocks and instructions and placed there. There is a text exactly if there is no such diagnostic.
-/

namespace BlockAsm

open Allocator

structure Block.Typed (b : Block) : Prop where
  label : ∃ s, b.label = .str s
  items : ∀ item ∈ b.items, ∃ i, item = .instruction i ∧ i.Typed

structure Function.Typed (f : Function) : Prop where
  header : ∃ fields, f.header = .object fields
  consts : ∃ values, f.consts = .list values
  upvalues : ∃ decls, f.upvalues = .declared decls
  locals : ∃ names : List String, f.locals = .list (names.map .str)
  blocks : ∀ b ∈ f.blocks, b.Typed

def given (p : Prop) [Decidable p] (d : Diagnostic) : List Diagnostic := if p then [d] else []

theorem given_eq_nil_iff {p : Prop} [Decidable p] {d : Diagnostic} : given p d = [] ↔ ¬ p := by
  simp [given]

def Item.violations (label : Value) : Item → List Diagnostic
  | .instruction i => given (i.tag.plain = "") { complaint := .tagMissing i, block := some label }
  | .other _ => []

def Block.violations (earlier : List String) (b : Block) : List Diagnostic :=
  given (b.label.plain = "") { complaint := .blockUnlabelled } ++
    given (b.label.plain ∈ earlier) { complaint := .labelRepeated b.label } ++
    b.items.flatMap (Item.violations b.label)

def violationsAfter (earlier : List String) : List Block → List Diagnostic
  | [] => []
  | b :: rest => b.violations earlier ++ violationsAfter (b.label.plain :: earlier) rest

/-- What is wrong with the labels and tags of a function, in the order in which it is checked. -/
def Function.violations (f : Function) : List Diagnostic :=
  ifAbsent f.blocks.head? (.noBlocks f.name) ++ violationsAfter [] f.blocks

namespace Check

theorem items_settles (label : String) {items : List Item}
    (typed : ∀ item ∈ items, ∃ i, item = .instruction i ∧ i.Typed) :
    Settles (Check.items (.str label) items) (items.flatMap (Item.violations (.str label))) := by
  induction items with
  | nil => exact ⟨(), rfl⟩
  | cons item rest ih =>
    obtain ⟨i, rfl, typedFirst⟩ := typed item (by simp)
    rw [Check.items, List.flatMap_cons]
    refine Settles.bind ?_ fun _ _ => ih fun other later => typed other (by simp [later])
    obtain ⟨s, tagged⟩ := typedFirst.tag
    obtain ⟨fields, object⟩ := typedFirst.metadata
    simp only [Check.item, Item.violations, tagged, object, Value.plain, given]
    by_cases empty : s = ""
    · simp only [String.isEmpty_iff, empty, if_true]
      rfl
    · simp only [String.isEmpty_iff, empty, if_false]
      exact ⟨(), rfl⟩

theorem blocks_settles {blocks : List Block} (typed : ∀ b ∈ blocks, b.Typed) (earlier : List String) :
    Settles (Check.blocks (earlier.map .str) blocks) (violationsAfter earlier blocks) := by
  induction blocks generalizing earlier with
  | nil => exact ⟨(), rfl⟩
  | cons b rest ih =>
    obtain ⟨s, labelled⟩ := (typed b (by simp)).label
    have checked := Settles.bind (items_settles s (typed b (by simp)).items) fun _ _ =>
      ih (fun other later => typed other (by simp [later])) (s :: earlier)
    have keyed : Value.Key.str s ∈ earlier.map Value.Key.str ↔ s ∈ earlier := by simp
    simp only [Check.blocks, violationsAfter, Block.violations, labelled, Value.truthy, Value.key?,
      Value.plain, given, Bool.not_not, String.isEmpty_iff, keyed]
    by_cases empty : s = ""
    · simp only [empty, if_true]
      rfl
    · by_cases repeated : s ∈ earlier
      · simp only [empty, repeated, if_true, if_false]
        rfl
      · simp only [empty, repeated, if_false]
        exact checked

theorem function_settles {f : Function} (typed : f.Typed) :
    Settles (Check.function f) f.violations := by
  obtain ⟨values, pooled⟩ := typed.consts
  obtain ⟨decls, declared⟩ := typed.upvalues
  have checked := blocks_settles typed.blocks []
  cases blocks : f.blocks with
  | nil =>
    simp only [Check.function, Function.violations, blocks]
    rfl
  | cons b rest =>
    rw [blocks] at checked
    simp only [Check.function, Function.violations, blocks, Check.pool, Check.upvalues, pooled,
      declared]
    exact checked

end Check

theorem Block.Typed.instruction {b : Block} (typed : b.Typed) {i : Instruction}
    (membership : .instruction i ∈ b.items) : i.Typed := by
  obtain ⟨j, same, typedItem⟩ := typed.items _ membership
  cases same
  exact typedItem

theorem Block.Typed.violations_eq_nil_iff {b : Block} (typed : b.Typed) {i : Instruction}
    (membership : .instruction i ∈ b.items) :
    Item.violations b.label (.instruction i) = [] ↔ i.tag ≠ .str "" := by
  obtain ⟨s, tagged⟩ := (typed.instruction membership).tag
  simp [Item.violations, given_eq_nil_iff, tagged, Value.plain]

theorem violationsAfter_eq_nil_iff (blocks : List Block) (earlier : List String) :
    violationsAfter earlier blocks = [] ↔
      (∀ b ∈ blocks, b.label.plain ≠ "" ∧ b.label.plain ∉ earlier ∧
        ∀ item ∈ b.items, item.violations b.label = []) ∧
      (blocks.map fun b => b.label.plain).Nodup := by
  induction blocks generalizing earlier with
  | nil => simp [violationsAfter]
  | cons b rest ih =>
    rw [violationsAfter, List.append_eq_nil_iff, ih]
    simp only [Block.violations, List.append_eq_nil_iff, given_eq_nil_iff, List.flatMap_eq_nil_iff,
      List.mem_cons, not_or, forall_eq_or_imp, List.map_cons, List.nodup_cons, List.mem_map]
    constructor
    · rintro ⟨⟨⟨labelled, fresh⟩, tagged⟩, others, distinct⟩
      refine ⟨⟨⟨labelled, fresh, tagged⟩, fun other later => ?_⟩, ?_, distinct⟩
      · exact ⟨(others other later).1, (others other later).2.1.2, (others other later).2.2⟩
      · rintro ⟨other, later, same⟩
        exact (others other later).2.1.1 same
    · rintro ⟨⟨⟨labelled, fresh, tagged⟩, others⟩, apart, distinct⟩
      refine ⟨⟨⟨labelled, fresh⟩, tagged⟩, fun other later => ?_, distinct⟩
      refine ⟨(others other later).1, ⟨?_, (others other later).2.1⟩, (others other later).2.2⟩
      exact fun same => apart ⟨other, later, same⟩

/-- The checks find nothing exactly if there is a block, labels are there and different, and tags are
there. -/
theorem Function.violations_eq_nil_iff {f : Function} (typed : f.Typed) :
    f.violations = [] ↔ f.blocks ≠ [] ∧ (∀ b ∈ f.blocks, b.label ≠ .str "") ∧
      (f.blocks.map Block.label).Nodup ∧
      ∀ b ∈ f.blocks, ∀ i, .instruction i ∈ b.items → i.tag ≠ .str "" := by
  have labels : ∀ b ∈ f.blocks, b.label = .str b.label.plain := by
    intro b hb
    obtain ⟨s, labelled⟩ := (typed.blocks b hb).label
    rw [labelled, Value.plain]
  have distinct : (f.blocks.map fun b => b.label.plain).Nodup ↔ (f.blocks.map Block.label).Nodup := by
    have composed : (f.blocks.map fun b => b.label.plain) =
        (f.blocks.map Block.label).map Value.plain := by simp
    rw [composed]
    refine ⟨List.Nodup.of_map _, List.Nodup.map_on ?_⟩
    intro x hx y hy same
    obtain ⟨b, hb, rfl⟩ := List.mem_map.mp hx
    obtain ⟨d, hd, rfl⟩ := List.mem_map.mp hy
    rw [labels b hb, labels d hd, same]
  have present : (∃ b, f.blocks.head? = some b) ↔ f.blocks ≠ [] := by
    cases f.blocks <;> simp
  rw [violations, List.append_eq_nil_iff, ifAbsent_eq_nil_iff, present, violationsAfter_eq_nil_iff,
    distinct]
  constructor
  · rintro ⟨some, each, nodup⟩
    refine ⟨some, fun b hb unlabelled => ?_, nodup, fun b hb i membership => ?_⟩
    · exact (each b hb).1 (by rw [unlabelled, Value.plain])
    · exact ((typed.blocks b hb).violations_eq_nil_iff membership).mp ((each b hb).2.2 _ membership)
  · rintro ⟨some, labelled, nodup, tagged⟩
    refine ⟨some, fun b hb => ⟨fun empty => ?_, by simp, fun item membership => ?_⟩, nodup⟩
    · exact labelled b hb (by rw [labels b hb, empty])
    · obtain ⟨i, rfl, -⟩ := (typed.blocks b hb).items item membership
      exact ((typed.blocks b hb).violations_eq_nil_iff membership).mpr (tagged b hb i membership)

def Item.objections : Item → List Diagnostic
  | .instruction i => i.objections
  | .other _ => []

def Block.objections (b : Block) : List Diagnostic :=
  b.items.flatMap fun item =>
    item.objections.map fun d => d.annotate b.label (some (.str item.text))

def Function.objections (f : Function) : List Diagnostic := f.blocks.flatMap Block.objections

theorem Function.objections_eq_nil_iff {f : Function} (typed : f.Typed) :
    f.objections = [] ↔ ∀ b ∈ f.blocks, ∀ i, .instruction i ∈ b.items → i.Accepted := by
  simp only [objections, Block.objections, List.flatMap_eq_nil_iff, List.map_eq_nil_iff]
  refine forall₂_congr fun b hb => ?_
  constructor
  · intro unobjected i membership
    have typedItem := (typed.blocks b hb).instruction membership
    exact (Instruction.objections_eq_nil_iff typedItem).mp (unobjected _ membership)
  · intro accepted item membership
    obtain ⟨i, rfl, typedItem⟩ := (typed.blocks b hb).items item membership
    exact (Instruction.objections_eq_nil_iff typedItem).mpr (accepted i membership)

namespace Context

theorem lowerAll_settles {c : Context} (wf : c.allocator.WellFormed) (label : Value)
    {items : List Item} (typed : ∀ item ∈ items, ∃ i, item = .instruction i ∧ i.Typed) :
    Settles (c.lowerAll label items).2 (items.flatMap fun item =>
      item.objections.map fun d => d.annotate label (some (.str item.text))) := by
  induction items generalizing c with
  | nil => exact ⟨(), rfl⟩
  | cons item rest ih =>
    obtain ⟨i, rfl, typedFirst⟩ := typed item (by simp)
    have first := lower_settles wf typedFirst
    have wfNext := (lower_groups wf (.instruction i)).1
    rw [lowerAll, List.flatMap_cons, Item.objections]
    rcases lowered : c.lower (.instruction i) with ⟨d, r⟩
    rw [lowered] at first wfNext
    cases objected : i.objections with
    | nil =>
      rw [objected] at first
      obtain ⟨u, rfl⟩ := first
      exact ih wfNext fun other later => typed other (by simp [later])
    | cons e more =>
      rw [objected] at first
      cases first
      rfl

/-- Every line of the block that is being written is a text. -/
def Textual (c : Context) : Prop := ∀ line ∈ c.lines, ∃ s, line.value = .str s

namespace Textual

variable {c : Context}

theorem write (textual : c.Textual) {line : Line} (text : ∃ s, line.value = .str s) :
    (c.write line).Textual := by
  intro other written
  rcases List.mem_append.mp written with before | last
  · exact textual other before
  · rw [List.mem_singleton.mp last]
    exact text

theorem resolveReturned (textual : c.Textual) (operands : List Operand) :
    (c.resolveReturned operands).1.Textual := by
  induction operands generalizing c with
  | nil => exact textual
  | cons o rest ih =>
    rw [resolveReturned_cons]
    split
    · exact textual
    · rename_i t d step
      have next : d.Textual := by
        by_cases constant : ∃ index, o = .constant index
        · obtain ⟨index, rfl⟩ := constant
          cases step
          exact write textual ⟨_, rfl⟩
        · obtain ⟨a, -, rfl⟩ := returnStep_eq_ok (not_exists.mp constant) step
          exact textual
      exact ih next

theorem perform (textual : c.Textual) {r : Recipe}
    (payload : ∀ v, r = .verbatim v → ∃ s, v = .str s) : (c.perform r).1.Textual := by
  cases r with
  | line o operands immediates =>
    simp only [Context.perform]
    split
    · exact write textual ⟨_, rfl⟩
    · exact textual
  | abort operands why =>
    simp only [Context.perform]
    split <;> exact textual
  | giveBack operands =>
    have returned := textual.resolveReturned operands
    simp only [Context.perform]
    split <;> rename_i d _ resolved <;> rw [resolved] at returned
    · rename_i tokens
      cases tokens <;> exact returned.write ⟨_, rfl⟩
    · exact returned
  | enterLoop index limit step target =>
    simp only [Context.perform, Context.enterLoop]
    split
    · exact textual
    · intro line written
      rcases List.mem_append.mp written with before | entry
      · exact textual line before
      · rcases List.mem_append.mp entry with copied | jump
        · obtain ⟨copy, -, rfl⟩ := List.mem_map.mp copied
          unfold copyLine
          split <;> exact ⟨_, rfl⟩
        · rw [List.mem_singleton.mp jump]
          exact ⟨_, rfl⟩
  | stepLoop index body =>
    simp only [Context.perform, Context.stepLoop]
    split
    · exact textual
    · exact write textual ⟨_, rfl⟩
    · split
      · exact textual
      · exact write textual ⟨_, rfl⟩
  | verbatim v => exact textual.write (payload v rfl)

theorem lower (textual : c.Textual) {i : Instruction} (typed : i.Typed) :
    (c.lower (.instruction i)).1.Textual := by
  apply textual.perform
  intro payload made
  exact typed.payload payload (Instruction.given?_of_verbatim typed made)

theorem lowerAll (textual : c.Textual) (label : Value) {items : List Item}
    (typed : ∀ item ∈ items, ∃ i, item = .instruction i ∧ i.Typed) :
    (c.lowerAll label items).1.Textual := by
  induction items generalizing c with
  | nil => exact textual
  | cons item rest ih =>
    obtain ⟨i, rfl, typedFirst⟩ := typed item (by simp)
    have next := textual.lower typedFirst
    rw [Context.lowerAll]
    split <;> rename_i d _ lowered <;> rw [lowered] at next
    · exact ih next fun other later => typed other (by simp [later])
    · exact next

end Textual

theorem opened_textual (c : Context) (b : Block) : (c.opened b).Textual := by
  have empty : (c.begin b.label).Textual := fun line written => nomatch written
  exact (empty.write ⟨_, rfl⟩).write ⟨_, rfl⟩

theorem emitBlock_settles {c : Context} (wf : c.allocator.WellFormed) {b : Block} (typed : b.Typed) :
    Settles (c.emitBlock b).2 b.objections := by
  have wfOpened : (c.opened b).allocator.WellFormed := wf
  rw [emitBlock_snd]
  exact (lowerAll_settles wfOpened b.label typed.items).map _

theorem emitBlock_textual {c : Context} {b : Block} (typed : b.Typed) {lines : List Line}
    (emitted : (c.emitBlock b).2 = .ok lines) : ∀ line ∈ lines, ∃ s, line.value = .str s := by
  have textual := (c.opened_textual b).lowerAll b.label typed.items
  rw [emitBlock_snd] at emitted
  rcases lowered : (c.opened b).lowerAll b.label b.items with ⟨d, _ | _⟩ <;>
    rw [lowered] at emitted textual <;> cases emitted
  exact textual.write ⟨_, rfl⟩

theorem emitBlock_wellFormed {c : Context} (wf : c.allocator.WellFormed) {b : Block}
    {lines : List Line} (emitted : (c.emitBlock b).2 = .ok lines) :
    (c.emitBlock b).1.allocator.WellFormed := by
  obtain ⟨e, lowered, finish, -⟩ := emitBlock_eq_ok (Prod.ext rfl emitted)
  have wfOpened : (c.opened b).allocator.WellFormed := wf
  rw [finish, (lowerAll_ok lowered).1]
  exact lowerEach_wellFormed wfOpened b.items

end Context

namespace Assembly

theorem blockSection_settles {c : Context} (wf : c.allocator.WellFormed) {blocks : List Block}
    (typed : ∀ b ∈ blocks, b.Typed) :
    Settles (blockSection c blocks).2 (blocks.flatMap Block.objections) := by
  induction blocks generalizing c with
  | nil => exact ⟨[], rfl⟩
  | cons b rest ih =>
    rw [blockSection_cons, List.flatMap_cons]
    refine (Context.emitBlock_settles wf (typed b (by simp))).bind fun lines emitted => ?_
    exact (ih (Context.emitBlock_wellFormed wf emitted)
      fun other later => typed other (by simp [later])).map _

theorem blockSection_textual {c : Context} {blocks : List Block} (typed : ∀ b ∈ blocks, b.Typed)
    {listing : List Line} (sectioned : (blockSection c blocks).2 = .ok listing) :
    ∀ line ∈ listing, ∃ s, line.value = .str s := by
  induction blocks generalizing c listing with
  | nil =>
    cases sectioned
    exact fun line membership => nomatch membership
  | cons b rest ih =>
    rw [blockSection_cons, Except.bind_eq_ok] at sectioned
    obtain ⟨lines, emitted, mapped⟩ := sectioned
    cases others : (blockSection (c.emitBlock b).1 rest).2 with
    | error f =>
      rw [others] at mapped
      cases mapped
    | ok more =>
      rw [others] at mapped
      cases mapped
      have first := Context.emitBlock_textual (typed b (by simp)) emitted
      have later := ih (fun other later => typed other (by simp [later])) others
      intro line membership
      rcases List.mem_append.mp membership with here | after
      · exact first line here
      · rcases List.mem_cons.mp after with rfl | last
        · exact ⟨_, rfl⟩
        · exact later line last

theorem lineTexts_of_textual {lines : List Line} (textual : ∀ line ∈ lines, ∃ s, line.value = .str s) :
    ∃ texts, lineTexts lines = .ok texts := by
  induction lines with
  | nil => exact ⟨[], rfl⟩
  | cons line rest ih =>
    obtain ⟨s, text⟩ := textual line (by simp)
    obtain ⟨texts, others⟩ := ih fun other later => textual other (by simp [later])
    exact ⟨s :: texts, by simp [lineTexts, text, others, Except.map]⟩

theorem document_of_textual {f : Function} (typed : f.Typed) {listing : List Line}
    (textual : ∀ line ∈ listing, ∃ s, line.value = .str s) (header : String) (storage : Value) :
    ∃ text, document f header listing storage = .ok text := by
  obtain ⟨values, pooled⟩ := typed.consts
  obtain ⟨decls, declared⟩ := typed.upvalues
  obtain ⟨texts, joined⟩ := lineTexts_of_textual textual
  have constants : constantSection f.consts = .ok (constantLines 0 values) := by
    simp [constantSection, pooled, Value.members?]
  obtain ⟨upvalues, sectioned⟩ : ∃ lines, upvalueSection f.upvalues storage = .ok lines := by
    cases decls <;> simp [upvalueSection, declared]
  rw [document, constants, sectioned, joined]
  exact ⟨_, rfl⟩

theorem assemble_settles {c : Context} (wf : c.allocator.WellFormed) {f : Function}
    (typed : f.Typed) (storage : Value) : Settles (assemble c f storage).2 f.objections := by
  obtain ⟨fields, object⟩ := typed.header
  rw [assemble_snd, object, ← List.append_nil f.objections]
  refine (blockSection_settles wf typed.blocks).bind fun listing sectioned => ?_
  exact document_of_textual typed (blockSection_textual typed.blocks sectioned) _ _

end Assembly

theorem Allocator.seed_texts (a : Allocator) (names : List String) :
    ∃ b, a.seed (names.map .str) = (b, .ok ()) := by
  induction names generalizing a with
  | nil => exact ⟨a, rfl⟩
  | cons name rest ih =>
    obtain ⟨b, seeded⟩ := ih (a.place name).2
    exact ⟨b, by simpa [seed, placeValue_str] using seeded⟩

theorem Context.create_of_texts (names : List String) :
    ∃ c, create (.str defaultSuffix) (.list (names.map .str)) = .ok c := by
  obtain ⟨a, seeded⟩ := Allocator.seed_texts { stem := Pattern.occurrence.stem } names
  refine ⟨{ allocator := a }, ?_⟩
  simp only [create, suffixPattern, Pattern.parse_defaultSuffix, localNames, Value.members?, seeded]

theorem compile_settles {f : Function} (typed : f.Typed) :
    Settles (compile {} f).outcome (f.violations ++ f.objections) := by
  rw [outcome_compile]
  refine (Check.function_settles typed).bind fun _ _ => ?_
  obtain ⟨names, locals⟩ := typed.locals
  obtain ⟨c, created⟩ := Context.create_of_texts names
  rw [locals, created]
  exact Assembly.assemble_settles ((Context.create_seeded created).wellFormed) typed _

/-- Compiling a function of the declared kinds gives a text or one diagnostic and never fails. It gives
a text exactly if the labels and tags are in order and each instruction has what it needs, and else the
first of what the checks find and of the objections to instructions. -/
theorem compileFunction_verdict {f : Function} (typed : f.Typed) :
    ∃ answer, (compileFunction {} f).outcome = .ok answer ∧
      ((∃ text, answer = .ok text) ↔
        f.blocks ≠ [] ∧ (∀ b ∈ f.blocks, b.label ≠ .str "") ∧ (f.blocks.map Block.label).Nodup ∧
        (∀ b ∈ f.blocks, ∀ i, .instruction i ∈ b.items → i.tag ≠ .str "") ∧
        ∀ b ∈ f.blocks, ∀ i, .instruction i ∈ b.items → i.Accepted) ∧
      ∀ d, answer = .error d → (f.violations ++ f.objections).head? = some d := by
  have settled := compile_settles typed
  have clean := and_congr (Function.violations_eq_nil_iff typed) (Function.objections_eq_nil_iff typed)
  rw [← List.append_eq_nil_iff] at clean
  simp only [and_assoc] at clean
  rw [← clean]
  cases found : f.violations ++ f.objections with
  | nil =>
    rw [found] at settled
    obtain ⟨text, compiled⟩ := settled
    refine ⟨.ok text, by simp only [compileFunction, compiled], ?_, nofun⟩
    simp
  | cons d rest =>
    rw [found, settles_cons_iff] at settled
    refine ⟨.error d, by simp only [compileFunction, settled], ?_, ?_⟩
    · simp
    · rintro _ ⟨⟩
      rfl

/-- A bare name stands for a register as a key or a value, but not as the step of a loop. -/
def bareStep : Instruction where
  tag := .str "for_prep"
  args := [.register (.str "i"), .register (.str "n"), .other (.str "one")]
  metadata := .object [("loop", .str "exit")]

def bareStepLoop : Function where
  locals := .list [.str "n"]
  blocks := [{ label := .str "entry", items := [.instruction bareStep] },
    { label := .str "exit", items := [.instruction { tag := .str "frob" }] }]

theorem compileFunction_verdict_of_bareStepLoop :
    bareStepLoop.Typed ∧ (compileFunction {} bareStepLoop).outcome =
      .ok (.error ⟨.unresolvable (.other (.str "one")), some (.str "entry"),
        some (.str "for_prep(%i, %n, 'one')")⟩) := by
  have typedStep : bareStep.Typed := by
    refine ⟨⟨_, rfl⟩, ⟨_, rfl⟩, nofun, nofun, ?_⟩
    simp [bareStep, Operand.Named]
  have typed : bareStepLoop.Typed := by
    refine ⟨⟨_, rfl⟩, ⟨_, rfl⟩, ⟨_, rfl⟩, ⟨["n"], rfl⟩, ?_⟩
    simp only [bareStepLoop, List.mem_cons, List.not_mem_nil, or_false, forall_eq_or_imp, forall_eq]
    refine ⟨⟨⟨_, rfl⟩, ?_⟩, ⟨⟨_, rfl⟩, ?_⟩⟩ <;>
      simp only [List.mem_cons, List.not_mem_nil, or_false, forall_eq]
    · exact ⟨bareStep, rfl, typedStep⟩
    · exact ⟨_, rfl, ⟨_, rfl⟩, ⟨_, rfl⟩, nofun, nofun, nofun⟩
  obtain ⟨answer, outcome, accepted, first⟩ := compileFunction_verdict typed
  have objected : (bareStepLoop.violations ++ bareStepLoop.objections).head? =
      some ⟨.unresolvable (.other (.str "one")), some (.str "entry"),
        some (.str "for_prep(%i, %n, 'one')")⟩ := by rfl
  cases answer with
  | error d =>
    rw [objected] at first
    cases first d rfl
    exact ⟨typed, outcome⟩
  | ok text =>
    have each := (accepted.mp ⟨text, rfl⟩).2.2.2.2
    have accepted : bareStep.Accepted :=
      each { label := .str "entry", items := [.instruction bareStep] } (by simp [bareStepLoop])
        bareStep (by simp)
    cases (Instruction.objections_eq_nil_iff typedStep).mpr accepted

end BlockAsm
