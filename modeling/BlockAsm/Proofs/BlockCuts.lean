import BlockAsm.Proofs.Configuration
import BlockAsm.Proofs.Verdict

/-!
How a sequence of items is cut into blocks. Up to what frames each block, the rows of the listing are the
lines of the whole sequence in one context, whatever the cut. A failure is that of the whole sequence too;
only the block that it is placed in depends on the cut.
-/

namespace BlockAsm

/-- The blocks hold the items one after the other, under names of their own. -/
structure Cut (items : List Item) (blocks : List Block) : Prop where
  present : blocks ≠ []
  held : blocks.flatMap Block.items = items
  labels : ∃ names : List String, blocks.map Block.label = names.map .str ∧ names.Nodup ∧ "" ∉ names

namespace Check

theorem item_cases (i : Item) : (∀ label, item label i = .ok ()) ∨
    ∃ complaint, ∀ label, item label i = refuseIn label complaint := by
  cases i with
  | other v => exact .inr ⟨_, fun _ => rfl⟩
  | instruction i =>
    simp only [item]
    split
    · split
      · exact .inr ⟨_, fun _ => rfl⟩
      · split
        · exact .inl fun _ => rfl
        · exact .inr ⟨_, fun _ => rfl⟩
    · exact .inr ⟨_, fun _ => rfl⟩

theorem items_append (label : Value) (first second : List Item) :
    items label (first ++ second) = items label first >>= fun _ => items label second := by
  induction first with
  | nil => rfl
  | cons i rest ih =>
    simp only [List.cons_append, items, ih]
    cases item label i <;> rfl

theorem items_cases (is : List Item) : (∀ label, items label is = .ok ()) ∨
    ∃ first i rest complaint, is = first ++ i :: rest ∧ (∀ label, items label first = .ok ()) ∧
      ∀ label, item label i = refuseIn label complaint := by
  induction is with
  | nil => exact .inl fun _ => rfl
  | cons i rest ih =>
    rcases item_cases i with passed | ⟨complaint, refused⟩
    · have next : ∀ label others, items label (i :: others) = items label others := by
        intro label others
        rw [items, passed, Except.ok_bind]
      rcases ih with all | ⟨first, j, later, complaint, split, before, refused⟩
      · exact .inl fun label => by rw [next, all]
      · exact .inr ⟨i :: first, j, later, complaint, by rw [split, List.cons_append],
          fun label => by rw [next, before], refused⟩
    · exact .inr ⟨[], i, rest, complaint, rfl, fun _ => rfl, refused⟩

theorem blocks_of_labels {bs : List Block} {names : List String} (earlier : List String)
    (labels : bs.map Block.label = names.map .str) (distinct : names.Nodup)
    (apart : ∀ name ∈ names, name ∉ earlier) (named : "" ∉ names) :
    blocks (earlier.map .str) bs = forM bs fun b => items b.label b.items := by
  induction bs generalizing names earlier with
  | nil => rfl
  | cons b rest ih =>
    obtain ⟨name, others, rfl, labelled, more⟩ := List.map_eq_cons_iff.mp labels.symm
    obtain ⟨new, distinct⟩ := List.nodup_cons.mp distinct
    obtain ⟨present, named⟩ := not_or.mp (mt List.mem_cons.mpr named)
    have later := ih (name :: earlier) more.symm distinct (fun other listed seen => by
      rcases List.mem_cons.mp seen with rfl | seen
      · exact new listed
      · exact apart other (by simp [listed]) seen) named
    have unseen : Value.Key.str name ∉ earlier.map Value.Key.str := by
      simpa using apart name (by simp)
    rw [blocks, ← labelled]
    simp only [Value.truthy, Value.key?, Bool.not_not, String.isEmpty_iff, Ne.symm present, if_false,
      unseen]
    rw [List.map_cons] at later
    rw [later, List.forM_cons, ← labelled]

theorem function_of_cut {f : Function} {is : List Item} {bs : List Block} (cut : Cut is bs) :
    function { f with blocks := bs } = pool f >>= fun _ => upvalues f >>= fun _ =>
      forM bs fun b => items b.label b.items := by
  obtain ⟨names, labels, distinct, named⟩ := cut.labels
  have present : bs.isEmpty = false := by simpa using cut.present
  simp only [function, present, Bool.false_eq_true, if_false, ← blocks_of_labels [] labels
    distinct (fun _ _ => List.not_mem_nil) named]
  rfl

theorem forM_items_of_passed {is : List Item} {bs : List Block}
    (held : bs.flatMap Block.items = is) (passed : ∀ label, items label is = .ok ()) :
    (forM bs fun b => items b.label b.items) = .ok () := by
  induction bs generalizing is with
  | nil => rfl
  | cons b rest ih =>
    subst held
    simp only [List.flatMap_cons, items_append, Except.bind_eq_ok] at passed
    have own : items b.label b.items = .ok () := by
      obtain ⟨_, own, -⟩ := passed b.label
      exact own
    rw [List.forM_cons, own]
    apply ih rfl
    intro label
    obtain ⟨_, -, others⟩ := passed label
    exact others

theorem forM_items_of_refused {first rest : List Item} {i : Item} {complaint : Complaint}
    {bs : List Block} (held : bs.flatMap Block.items = first ++ i :: rest)
    (before : ∀ label, items label first = .ok ())
    (refused : ∀ label, item label i = refuseIn label complaint) :
    (forM bs fun b => items b.label b.items) = refuseIn (labelAt bs first.length) complaint := by
  induction bs generalizing first with
  | nil => simp at held
  | cons b others ih =>
    rw [List.forM_cons]
    rcases split_append held with ⟨tail, own⟩ | ⟨later, rfl, more⟩
    · rw [labelAt_of_first own, own, items_append, before, Except.ok_bind, items, refused]
      rfl
    · simp only [items_append, Except.bind_eq_ok] at before
      have own : items b.label b.items = .ok () := by
        obtain ⟨_, own, -⟩ := before b.label
        exact own
      rw [labelAt_of_later, own]
      apply ih more
      intro label
      obtain ⟨_, -, after⟩ := before label
      exact after

end Check

namespace Listing

theorem outcome_printItems_append (first second : List Item) :
    (printItems (first ++ second)).outcome =
      (printItems first).outcome >>= fun _ => (printItems second).outcome := by
  induction first with
  | nil => rfl
  | cons i rest ih =>
    cases i with
    | other v => rfl
    | instruction i => exact ih

theorem outcome_printBlocks (bs : List Block) :
    (printBlocks bs).outcome = (printItems (bs.flatMap Block.items)).outcome := by
  induction bs with
  | nil => rfl
  | cons b rest ih =>
    rw [List.flatMap_cons, outcome_printItems_append, ← ih]
    simp only [printBlocks, Report.outcome_bind]
    rfl

end Listing

/-- The line cannot be joined with others. -/
def Line.isStray (line : Line) : Bool :=
  match line.value with
  | .str _ => false
  | _ => true

theorem Written.find?_isStray (written : List Written) :
    (written.flatMap Written.lines).find? Line.isStray =
      ((written.flatMap Written.code).flatMap Prod.snd).find? Line.isStray := by
  have framed : ∀ s, (Line.text s).isStray = false := fun _ => rfl
  induction written with
  | nil => rfl
  | cons w rest ih => simp [Written.lines, framed, ih]

namespace Assembly

theorem lineTexts_of_stray {lines : List Line} {line : Line}
    (found : lines.find? Line.isStray = some line) :
    lineTexts lines = .error (.fault (.payloadNotText line.value)) := by
  induction lines with
  | nil => cases found
  | cons first rest ih =>
    cases value : first.value with
    | str s =>
      have text : first.isStray = false := by rw [Line.isStray, value]
      rw [List.find?_cons, text] at found
      simp only [lineTexts, value, ih found, Except.map]
    | _ =>
      have stray : first.isStray = true := by rw [Line.isStray, value]
      rw [List.find?_cons, stray] at found
      cases found
      simp [lineTexts, value]

theorem exists_lineTexts {lines : List Line} (none : lines.find? Line.isStray = none) :
    ∃ texts, lineTexts lines = .ok texts := by
  apply lineTexts_of_textual
  intro line listed
  have text := List.find?_eq_none.mp none line listed
  cases value : line.value with
  | str s => exact ⟨s, rfl⟩
  | _ => simp [Line.isStray, value] at text

/-- Whether there is a document does not depend on the blocks that the lines are in. -/
theorem document_cases (f : Function) (header : String) (storage : Value)
    (code : List (Item × List Line)) :
    (∃ why, ∀ (bs : List Block) (written : List Written), written.flatMap Written.code = code →
        document { f with blocks := bs } header (written.flatMap Written.lines) storage = .error why) ∨
      ∀ (bs : List Block) (written : List Written), written.flatMap Written.code = code →
        ∃ text, document { f with blocks := bs } header (written.flatMap Written.lines) storage =
          .ok text := by
  simp only [document]
  cases constantSection f.consts with
  | error why => exact .inl ⟨why, fun _ _ _ => rfl⟩
  | ok constants =>
    cases upvalueSection f.upvalues storage with
    | error why => exact .inl ⟨why, fun _ _ _ => rfl⟩
    | ok upvalues =>
      simp only [Except.ok_bind]
      cases found : (code.flatMap Prod.snd).find? Line.isStray with
      | some stray =>
        refine .inl ⟨.fault (.payloadNotText stray.value), fun bs written same => ?_⟩
        rw [← same, ← Written.find?_isStray] at found
        rw [lineTexts_of_stray found]
        rfl
      | none =>
        refine .inr fun bs written same => ?_
        rw [← same, ← Written.find?_isStray] at found
        obtain ⟨texts, joined⟩ := exists_lineTexts found
        rw [joined]
        exact ⟨_, rfl⟩

end Assembly

/-- The items before one come through and it does not, in the checks or in lowering. A refusal in
lowering names the instruction. -/
inductive Stops (suffix locals : Value) (first : List Item) (item : Item) :
    Failure → Option Value → Prop
  | checked {complaint : Complaint} (before : ∀ label, Check.items label first = .ok ())
      (here : ∀ label, Check.item label item = Check.refuseIn label complaint) :
      Stops suffix locals first item (.ofComplaint complaint) none
  | lowered {c d : Context} {why : Failure} (created : Context.create suffix locals = .ok c)
      (before : ∀ label, c.lowerAll label first = (d, .ok ())) (here : (d.lower item).2 = .error why) :
      Stops suffix locals first item why (some (.str item.text))

/-- All cuts of a sequence fail, with one failure or at one item. -/
inductive Cut.Fails (suffix locals : Value) (items : List Item) {α : Type}
    (r : List Block → Except Failure α) : Prop
  | apart (why : Failure) (all : ∀ blocks, Cut items blocks → r blocks = .error why)
  | stopped {first rest : List Item} {item : Item} {why : Failure} {culprit : Option Value}
      (split : items = first ++ item :: rest) (stops : Stops suffix locals first item why culprit)
      (all : ∀ blocks, Cut items blocks →
        r blocks = .error (why.annotate (labelAt blocks first.length) culprit))

/-- The text is the document of the function, in which each item is what the code says. Without what frames
the blocks, its listing is the given lines. -/
def Function.Lists (f : Function) (storage : Value) (code : List (Item × List Line)) (lines : List Line)
    (text : String) : Prop :=
  ∃ written : List Written, f.Shows storage written text ∧ written.flatMap Written.code = code ∧
    written.flatMap Written.kept = lines.map fun line => line.value.plain

namespace Cut

variable {suffix locals : Value} {items : List Item} {α β : Type}
  {r s : List Block → Except Failure α}

theorem Fails.of_eq (fails : Fails suffix locals items r)
    (same : ∀ blocks, Cut items blocks → s blocks = r blocks) : Fails suffix locals items s := by
  cases fails with
  | apart why all => exact .apart why fun blocks cut => by rw [same blocks cut, all blocks cut]
  | stopped split stops all =>
    exact .stopped split stops fun blocks cut => by rw [same blocks cut, all blocks cut]

theorem Fails.bind (fails : Fails suffix locals items r)
    (next : List Block → α → Except Failure β) :
    Fails suffix locals items fun blocks => r blocks >>= next blocks := by
  cases fails with
  | apart why all =>
    apply Fails.apart why
    intro blocks cut
    rw [all blocks cut]
    rfl
  | stopped split stops all =>
    apply Fails.stopped split stops
    intro blocks cut
    rw [all blocks cut]
    rfl

theorem Fails.of_error (why : Failure) : Fails suffix locals items fun _ => (.error why : Except Failure α) :=
  .apart why fun _ _ => rfl

theorem lists_of_assemble {f : Function} {c d g : Context} {label storage : Value} {blocks : List Block}
    {text : String} (seeded : c.Seeded) (cut : Cut items blocks)
    (lowered : c.lowerAll label items = (d, .ok ()))
    (assembled : Assembly.assemble c { f with blocks := blocks } storage = (g, .ok text)) :
    Function.Lists { f with blocks := blocks } storage (c.segments items) d.lines text := by
  obtain ⟨_, written, -, -, shown, code⟩ := Assembly.assemble_shows assembled
  simp only [cut.held] at code
  refine ⟨written, shown, code, ?_⟩
  rw [Written.flatMap_kept, code, seeded.segments_lines lowered]

section Stages

variable (suffix locals items)

theorem listing_cases (p : Pipeline) (f : Function) :
    (∀ blocks, Cut items blocks → p.listing { f with blocks := blocks } = .ok ()) ∨
      Fails suffix locals items fun blocks => p.listing { f with blocks := blocks } := by
  have same : ∀ blocks, Cut items blocks → p.listing { f with blocks := blocks } =
      p.listing { f with blocks := [⟨.null, items⟩] } := by
    intro blocks cut
    simp only [Pipeline.listing, Listing.outcome_printFunction, Listing.outcome_printBlocks, cut.held,
      List.flatMap_cons, List.flatMap_nil, List.append_nil]
  cases listed : p.listing { f with blocks := [⟨.null, items⟩] } with
  | ok u => exact .inl fun blocks cut => by rw [same blocks cut, listed]
  | error why => exact .inr (.apart why fun blocks cut => by rw [same blocks cut, listed])

theorem check_cases (f : Function) :
    (∀ blocks, Cut items blocks → Check.function { f with blocks := blocks } = .ok ()) ∨
      Fails suffix locals items fun blocks => Check.function { f with blocks := blocks } := by
  cases pooled : Check.pool f with
  | error why =>
    refine .inr (.apart why fun blocks cut => ?_)
    rw [Check.function_of_cut cut, pooled]
    rfl
  | ok u =>
    cases declared : Check.upvalues f with
    | error why =>
      refine .inr (.apart why fun blocks cut => ?_)
      rw [Check.function_of_cut cut, pooled, declared]
      rfl
    | ok v =>
      have checked : ∀ blocks, Cut items blocks → Check.function { f with blocks := blocks } =
          forM blocks fun b => Check.items b.label b.items := by
        intro blocks cut
        rw [Check.function_of_cut cut, pooled, declared]
        rfl
      rcases Check.items_cases items with passed | ⟨first, item, rest, complaint, split, before, here⟩
      · refine .inl fun blocks cut => ?_
        rw [checked blocks cut, Check.forM_items_of_passed cut.held passed]
      · refine .inr (.stopped split (.checked before here) fun blocks cut => ?_)
        rw [checked blocks cut, Check.forM_items_of_refused (cut.held.trans split) before here]
        rfl

theorem checking_cases (p : Pipeline) (f : Function) :
    (∀ blocks, Cut items blocks → p.checking { f with blocks := blocks } = .ok ()) ∨
      Fails suffix locals items fun blocks => p.checking { f with blocks := blocks } := by
  unfold Pipeline.checking
  split
  · rcases check_cases suffix locals items f with passed | fails
    · cases measured : p.measuring .check with
      | ok u =>
        refine .inl fun blocks cut => ?_
        rw [passed blocks cut]
        rfl
      | error why =>
        refine .inr (.apart why fun blocks cut => ?_)
        rw [passed blocks cut]
        rfl
    · exact .inr (fails.bind fun _ _ => p.measuring .check)
  · exact .inl fun _ _ => rfl

end Stages

/-- The document is written for all cuts or for none. -/
theorem assemble_cases {f : Function} {c : Context} (created : Context.create suffix f.locals = .ok c)
    (storage : Value) :
    (∃ d, (∀ label, c.lowerAll label items = (d, .ok ())) ∧ ∀ blocks, Cut items blocks →
        ∃ text, (Assembly.assemble c { f with blocks := blocks } storage).2 = .ok text ∧
          Function.Lists { f with blocks := blocks } storage (c.segments items) d.lines text) ∨
      Fails suffix f.locals items fun blocks =>
        (Assembly.assemble c { f with blocks := blocks } storage).2 := by
  have snd := fun blocks => Assembly.assemble_snd c { f with blocks := blocks } storage
  cases headed : Assembly.headerText f.header with
  | error why =>
    simp only [headed] at snd
    exact .inr (.apart why fun blocks _ => snd blocks)
  | ok header =>
    simp only [headed, Except.ok_bind] at snd
    rcases c.lowerAll_cases items with ⟨d, lowered⟩ | ⟨first, item, rest, d, why, split, before, here⟩
    · have sections := fun blocks (cut : Cut items blocks) =>
        Assembly.blockSection_of_lowered cut.held rfl lowered
      rcases Assembly.document_cases f header storage (c.segments items) with ⟨why, none⟩ | all
      · refine .inr (.apart why fun blocks cut => ?_)
        obtain ⟨e, written, listed, -, -, code⟩ := sections blocks cut
        rw [snd, listed, Except.ok_bind, none blocks written code]
      · refine .inl ⟨d, lowered, fun blocks cut => ?_⟩
        obtain ⟨e, written, listed, -, -, code⟩ := sections blocks cut
        obtain ⟨text, documented⟩ := all blocks written code
        have assembled : (Assembly.assemble c { f with blocks := blocks } storage).2 = .ok text := by
          rw [snd, listed, Except.ok_bind, documented]
        exact ⟨text, assembled, lists_of_assemble (Context.create_seeded created) cut (lowered .null)
          (Prod.ext rfl assembled)⟩
    · refine .inr (.stopped split (.lowered created before here) fun blocks cut => ?_)
      rw [snd, Assembly.blockSection_of_stopped (cut.held.trans split) rfl before here]
      rfl

theorem generating_cases (items : List Item) (p : Pipeline) (f : Function) :
    (∃ c d, Context.create (p.passConfig .generate).suffix f.locals = .ok c ∧
        (∀ label, c.lowerAll label items = (d, .ok ())) ∧ ∀ blocks, Cut items blocks →
          ∃ text, p.generating { f with blocks := blocks } = .ok text ∧
            Function.Lists { f with blocks := blocks } (p.passConfig .generate).storage
              (c.segments items) d.lines text) ∨
      Fails (p.passConfig .generate).suffix f.locals items fun blocks =>
        p.generating { f with blocks := blocks } := by
  unfold Pipeline.generating
  split
  · cases Config.asObject (p.passConfig .generate).options with
    | error why => exact .inr (.of_error why)
    | ok options =>
      simp only [Except.ok_bind]
      cases created : Context.create (p.passConfig .generate).suffix f.locals with
      | error why => exact .inr (.of_error why)
      | ok c =>
        simp only [Except.ok_bind]
        rcases assemble_cases created (p.passConfig .generate).storage with ⟨d, lowered, all⟩ | fails
        · exact .inl ⟨c, d, rfl, lowered, all⟩
        · exact .inr fails
  · exact .inr (.of_error _)

end Cut

theorem Settings.pipeline_standard {settings : Settings} {p : Pipeline}
    (h : settings.pipeline = .ok p) : p.stations.map Station.pass = [.check, .generate] := by
  unfold Settings.pipeline at h
  split at h
  · cases h
    rfl
  · rename_i v _
    unfold Pipeline.configure at h
    cases applied : (Pipeline.standard settings.printStages settings.printMetrics).config.apply v with
    | error why => rw [applied] at h; cases h
    | ok config =>
      rw [applied] at h
      cases h
      rfl

/-- The cuts of a sequence all compile, each to the lines of the sequence in one context, or all fail. -/
theorem Cut.compile_cases (settings : Settings) (f : Function) (items : List Item) :
    (∃ c d, Context.create settings.generation.suffix f.locals = .ok c ∧
        (∀ label, c.lowerAll label items = (d, .ok ())) ∧ ∀ blocks, Cut items blocks →
          ∃ text, (compile settings { f with blocks := blocks }).outcome = .ok text ∧
            Function.Lists { f with blocks := blocks } settings.generation.storage (c.segments items)
              d.lines text) ∨
      Cut.Fails settings.generation.suffix f.locals items fun blocks =>
        (compile settings { f with blocks := blocks }).outcome := by
  simp only [outcome_compile_eq]
  cases configured : settings.pipeline with
  | error why => exact .inr (.of_error why)
  | ok p =>
    simp only [Except.ok_bind, p.outcome_run_standard _ (Settings.pipeline_standard configured),
      Settings.generation_eq configured]
    rcases Cut.listing_cases (p.passConfig .generate).suffix f.locals items p f with listed | fails
    · rcases Cut.checking_cases (p.passConfig .generate).suffix f.locals items p f with checked | fails
      · have reached : ∀ blocks, Cut items blocks → (do
            p.listing { f with blocks := blocks }
            p.checking { f with blocks := blocks }
            p.generating { f with blocks := blocks }) = p.generating { f with blocks := blocks } := by
          intro blocks cut
          rw [listed blocks cut, checked blocks cut]
          rfl
        rcases Cut.generating_cases items p f with ⟨c, d, created, lowered, all⟩ | fails
        · refine .inl ⟨c, d, created, lowered, fun blocks cut => ?_⟩
          rw [reached blocks cut]
          exact all blocks cut
        · exact .inr (fails.of_eq reached)
      · refine .inr ((fails.bind fun blocks _ => p.generating { f with blocks := blocks }).of_eq ?_)
        intro blocks cut
        rw [listed blocks cut]
        rfl
    · exact .inr (fails.bind fun blocks _ => p.checking { f with blocks := blocks } >>= fun _ =>
        p.generating { f with blocks := blocks })

/-- Two cuts of one sequence of items both compile, and then hold the lines of the sequence lowered in one
context, or both fail: with the same failure, or at the same item, where only the block differs. -/
theorem compile_cut {items : List Item} {blocks others : List Block} (cut : Cut items blocks)
    (recut : Cut items others) (settings : Settings) (f : Function) :
    (∃ c d text other, Context.create settings.generation.suffix f.locals = .ok c ∧
        (∀ label, c.lowerAll label items = (d, .ok ())) ∧
        (c.segments items).flatMap Prod.snd = d.lines ∧
        (compile settings { f with blocks := blocks }).outcome = .ok text ∧
        Function.Lists { f with blocks := blocks } settings.generation.storage (c.segments items) d.lines
          text ∧
        (compile settings { f with blocks := others }).outcome = .ok other ∧
        Function.Lists { f with blocks := others } settings.generation.storage (c.segments items) d.lines
          other) ∨
      (∃ why, (compile settings { f with blocks := blocks }).outcome = .error why ∧
        (compile settings { f with blocks := others }).outcome = .error why) ∨
      ∃ first item rest why culprit, items = first ++ item :: rest ∧
        Stops settings.generation.suffix f.locals first item why culprit ∧
        (compile settings { f with blocks := blocks }).outcome =
          .error (why.annotate (labelAt blocks first.length) culprit) ∧
        (compile settings { f with blocks := others }).outcome =
          .error (why.annotate (labelAt others first.length) culprit) := by
  rcases Cut.compile_cases settings f items with ⟨c, d, created, lowered, all⟩ | fails
  · left
    obtain ⟨text, compiled, listed⟩ := all blocks cut
    obtain ⟨other, recompiled, relisted⟩ := all others recut
    have uncut := (Context.create_seeded created).segments_lines (lowered .null)
    exact ⟨c, d, text, other, created, lowered, uncut, compiled, listed, recompiled, relisted⟩
  · right
    cases fails with
    | apart why all => exact .inl ⟨why, all blocks cut, all others recut⟩
    | stopped split stops all =>
      exact .inr ⟨_, _, _, _, _, split, stops, all blocks cut, all others recut⟩

/-- A loop whose step lies in a block of its own. -/
def spanning : List Item :=
  [.instruction (.enter "i_0" (.constant (.int 1)) (.constant (.int 0))),
    .instruction (.next "i_0"),
    .instruction { tag := .str "return", args := [.register (.str "i_1"), .constant (.int 1)] }]

def spanningWhole : List Block := [⟨.str "entry", spanning⟩]

def spanningParts : List Block :=
  [⟨.str "entry", spanning.take 1⟩, ⟨.str "latch", []⟩, ⟨.str "step", spanning.drop 1⟩]

theorem compile_cut_of_spanning :
    Cut spanning spanningWhole ∧ Cut spanning spanningParts ∧ ∃ c d text other,
      Context.create (.str defaultSuffix) (.list []) = .ok c ∧
      (∀ label, c.lowerAll label spanning = (d, .ok ())) ∧
      (c.segments spanning).flatMap Prod.snd = d.lines ∧
      (compile {} { blocks := spanningWhole }).outcome = .ok text ∧
      Function.Lists { blocks := spanningWhole } (.str Assembly.defaultUpvalue) (c.segments spanning)
        d.lines text ∧
      (compile {} { blocks := spanningParts }).outcome = .ok other ∧
      Function.Lists { blocks := spanningParts } (.str Assembly.defaultUpvalue) (c.segments spanning)
        d.lines other := by
  have whole : Cut spanning spanningWhole := ⟨by simp [spanningWhole], rfl, ["entry"], rfl, by decide,
    by decide⟩
  have parts : Cut spanning spanningParts := ⟨by simp [spanningParts], rfl, ["entry", "latch", "step"],
    rfl, by decide, by decide⟩
  have checked : Check.function { blocks := spanningWhole } = .ok () := by cbv
  obtain ⟨d, text, assembled⟩ : ∃ d text, Assembly.assemble Context.fresh { blocks := spanningWhole }
      (.str Assembly.defaultUpvalue) = (d, .ok text) := ⟨_, _, rfl⟩
  have compiled := compile_shipped checked Context.create_default assembled
  rcases compile_cut whole parts {} {} with
    compiles | ⟨why, failed, -⟩ | ⟨_, _, _, _, _, -, -, failed, -⟩
  · exact ⟨whole, parts, compiles⟩
  · rw [compiled] at failed
    cases failed
  · rw [compiled] at failed
    cases failed

end BlockAsm
