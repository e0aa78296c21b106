import BlockAsm.Assembly
import BlockAsm.Proofs.Layout

/-!
The listing of a function. Allocation goes on across the blocks of a function while the lines start anew in
each of them, so an item is lowered by the allocator alone, and the lines of the blocks are those of all
their items lowered one after the other in one context. The first item that is not lowered stops them. What
is written around the listing does not depend on it, and with that the text of a document is known.
-/

namespace BlockAsm

namespace Context

def bare (a : Allocator) : Context := { allocator := a }

/-- A context that goes on with what became of a bare one. -/
def resume (c d : Context) : Context :=
  { c with allocator := d.allocator, lines := c.lines ++ d.lines
           takeovers := c.takeovers ++ d.takeovers }

theorem resume_resume (c d e : Context) : c.resume (d.resume e) = (c.resume d).resume e := by
  simp [resume, List.append_assoc]

theorem resume_write (c d : Context) (line : Line) :
    c.resume (d.write line) = (c.resume d).write line := by
  simp [resume, write, List.append_assoc]

@[simp] theorem allocator_resume (c d : Context) : (c.resume d).allocator = d.allocator := rfl

@[simp] theorem lines_resume (c d : Context) : (c.resume d).lines = c.lines ++ d.lines := rfl

theorem returnStep_eq_resume (c : Context) (o : Operand) : c.returnStep o =
    ((bare c.allocator).returnStep o).map fun r => (r.1, c.resume r.2) := by
  by_cases constant : ∃ index, o = .constant index
  · obtain ⟨index, rfl⟩ := constant
    simp [returnStep, Except.map, writeCode, write, resume, bare, withAllocator]
  · simp only [returnStep_of_varying (not_exists.mp constant), bare]
    cases c.allocator.resolve o with
    | error f => rfl
    | ok r => simp [Except.map, resume, withAllocator]

theorem resolveReturned_eq_resume (c : Context) (operands : List Operand) :
    c.resolveReturned operands = (c.resume ((bare c.allocator).resolveReturned operands).1,
      ((bare c.allocator).resolveReturned operands).2) := by
  induction operands generalizing c with
  | nil => simp [resolveReturned, resume, bare]
  | cons o rest ih =>
    rw [resolveReturned_cons, resolveReturned_cons, returnStep_eq_resume]
    cases (bare c.allocator).returnStep o with
    | error f => simp [Except.map, resume, bare]
    | ok r =>
      simp only [Except.map]
      rw [ih (c.resume r.2), ih r.2, allocator_resume, resume_resume]

theorem perform_eq_resume (c : Context) (r : Recipe) :
    c.perform r = (c.resume ((bare c.allocator).perform r).1, ((bare c.allocator).perform r).2) := by
  cases r with
  | line o operands immediates =>
    simp only [perform, bare]
    split <;> simp [resume, withAllocator, writeCode, write]
  | abort operands why =>
    simp only [perform, bare]
    split <;> simp [resume, withAllocator]
  | giveBack operands =>
    simp only [perform, c.resolveReturned_eq_resume operands]
    rcases (bare c.allocator).resolveReturned operands with ⟨d, _ | tokens⟩ <;>
      simp only [resume_write]
  | enterLoop index limit step target =>
    simp only [perform, enterLoop, bare]
    split <;> simp [resume]
  | stepLoop index body =>
    simp only [perform, stepLoop, bare]
    split
    · simp [resume]
    · simp [resume, writeCode, write]
    · split <;> simp [resume, withAllocator, writeCode, write]
  | verbatim payload => simp [perform, resume, bare, write]

/-- An item is lowered by the allocator alone; what was written before is only kept. -/
theorem lower_eq_resume (c : Context) (item : Item) :
    c.lower item = (c.resume ((bare c.allocator).lower item).1, ((bare c.allocator).lower item).2) := by
  cases item with
  | instruction i => exact c.perform_eq_resume i.recipe
  | other v => simp [lower, resume, bare]

section Alike

variable {c d : Context} (alike : c.allocator = d.allocator)

include alike

theorem lower_snd_congr (item : Item) : (c.lower item).2 = (d.lower item).2 := by
  rw [c.lower_eq_resume, d.lower_eq_resume, alike]

theorem allocator_lower_congr (item : Item) :
    (c.lower item).1.allocator = (d.lower item).1.allocator := by
  rw [c.lower_eq_resume, d.lower_eq_resume, alike, allocator_resume, allocator_resume]

theorem emitted_congr (item : Item) : c.emitted item = d.emitted item := by
  have added : ∀ e : Context, e.emitted item = ((bare e.allocator).lower item).1.lines :=
    fun e => emitted_eq (by rw [e.lower_eq_resume, lines_resume])
  rw [added, added, alike]

theorem segments_congr (items : List Item) : c.segments items = d.segments items := by
  induction items generalizing c d with
  | nil => rfl
  | cons item rest ih =>
    rw [segments, segments, emitted_congr alike, ih (allocator_lower_congr alike item)]

theorem lowerAll_congr (label : Value) (items : List Item) :
    (c.lowerAll label items).2 = (d.lowerAll label items).2 ∧
      (c.lowerAll label items).1.allocator = (d.lowerAll label items).1.allocator := by
  induction items generalizing c d with
  | nil => exact ⟨rfl, alike⟩
  | cons item rest ih =>
    have answer := lower_snd_congr alike item
    have next := allocator_lower_congr alike item
    rw [lowerAll, lowerAll]
    rcases first : c.lower item with ⟨e, r⟩
    rcases second : d.lower item with ⟨g, t⟩
    rw [first, second] at answer next
    cases answer
    cases r with
    | ok u => exact ih next
    | error why => exact ⟨rfl, next⟩

end Alike

theorem lowerAll_append (c : Context) (label : Value) (first second : List Item) :
    c.lowerAll label (first ++ second) =
      match c.lowerAll label first with
      | (d, .ok ()) => d.lowerAll label second
      | (d, .error why) => (d, .error why) := by
  induction first generalizing c with
  | nil => rfl
  | cons item rest ih =>
    rw [List.cons_append, lowerAll, lowerAll]
    rcases c.lower item with ⟨d, r⟩
    cases r with
    | ok u => exact ih d
    | error why => rfl

/-- Items are all lowered, or the first that is not stops the others. The label has no part in it. -/
theorem lowerAll_cases (c : Context) (items : List Item) :
    (∃ d, ∀ label, c.lowerAll label items = (d, .ok ())) ∨
      ∃ first item rest d why, items = first ++ item :: rest ∧
        (∀ label, c.lowerAll label first = (d, .ok ())) ∧ (d.lower item).2 = .error why := by
  induction items generalizing c with
  | nil => exact .inl ⟨c, fun _ => rfl⟩
  | cons item rest ih =>
    rcases lowered : c.lower item with ⟨d, r⟩
    cases r with
    | error why => exact .inr ⟨[], item, rest, c, why, rfl, fun _ => rfl, by rw [lowered]⟩
    | ok u =>
      have passed : ∀ label others, c.lowerAll label (item :: others) = d.lowerAll label others := by
        intro label others
        rw [lowerAll, lowered]
      rcases ih d with ⟨e, all⟩ | ⟨first, other, later, e, why, split, before, failed⟩
      · exact .inl ⟨e, fun label => by rw [passed, all]⟩
      · exact .inr ⟨item :: first, other, later, e, why, by rw [split, List.cons_append],
          fun label => by rw [passed, before], failed⟩

theorem segments_append (c : Context) (first second : List Item) :
    c.segments (first ++ second) = c.segments first ++ (c.lowerEach first).segments second := by
  induction first generalizing c with
  | nil => rfl
  | cons item rest ih => rw [List.cons_append, segments, ih, segments, lowerEach_cons, List.cons_append]

theorem lowerAll_append_eq_ok {c d : Context} {label : Value} {first second : List Item}
    (lowered : c.lowerAll label (first ++ second) = (d, .ok ())) :
    c.lowerAll label first = (c.lowerEach first, .ok ()) ∧
      (c.lowerEach first).lowerAll label second = (d, .ok ()) := by
  rw [lowerAll_append] at lowered
  rcases passed : c.lowerAll label first with ⟨e, r⟩
  rw [passed] at lowered
  cases r with
  | ok u =>
    cases (lowerAll_ok passed).1
    exact ⟨rfl, lowered⟩
  | error why => cases lowered

theorem Seeded.segments_lines {c d : Context} {label : Value} {items : List Item} (seeded : c.Seeded)
    (lowered : c.lowerAll label items = (d, .ok ())) : (c.segments items).flatMap Prod.snd = d.lines := by
  rw [(lowerAll_ok lowered).1, lowerEach_lines, seeded.lines, List.nil_append]

/-- The context in which the items of a block are lowered. -/
def opened (c : Context) (b : Block) : Context :=
  ((c.begin b.label).write (.text (b.label.plain ++ ":"))).write (.text ".scope")

theorem emitBlock_snd (c : Context) (b : Block) :
    (c.emitBlock b).2 = ((c.opened b).lowerAll b.label b.items).2.map fun _ =>
      ((c.opened b).lowerAll b.label b.items).1.lines ++ [.text ".endscope"] := by
  unfold emitBlock
  rcases answer : (c.opened b).lowerAll b.label b.items with ⟨d, _ | _⟩ <;>
    rw [opened] at answer <;> simp only [answer] <;> rfl

theorem emitBlock_eq_ok {c d : Context} {b : Block} {lines : List Line}
    (h : c.emitBlock b = (d, .ok lines)) : ∃ e : Context,
      (c.opened b).lowerAll b.label b.items = (e, .ok ()) ∧ d.allocator = e.allocator ∧
      lines = [.text (b.label.plain ++ ":"), .text ".scope"] ++
        ((c.opened b).segments b.items).flatMap Prod.snd ++ [.text ".endscope"] := by
  unfold emitBlock at h
  simp only at h
  split at h
  · rename_i e lowered
    cases h
    refine ⟨e, lowered, rfl, ?_⟩
    rw [(lowerAll_ok lowered).1]
    simp only [take, write, lowerEach_lines]
    rfl
  · cases h

section Blocks

variable {c e : Context} (alike : c.allocator = e.allocator) {b : Block}

include alike

theorem emitBlock_of_lowered {d : Context} (lowered : e.lowerAll b.label b.items = (d, .ok ())) :
    (c.emitBlock b).1.allocator = d.allocator ∧
      (c.emitBlock b).2 = .ok ([.text (b.label.plain ++ ":"), .text ".scope"] ++
        (e.segments b.items).flatMap Prod.snd ++ [.text ".endscope"]) := by
  have own : (c.opened b).allocator = e.allocator := alike
  obtain ⟨answer, allocator⟩ := lowerAll_congr own b.label b.items
  obtain ⟨lines, emitted⟩ : ∃ lines, (c.emitBlock b).2 = .ok lines := by
    rw [emitBlock_snd, answer, lowered]
    exact ⟨_, rfl⟩
  obtain ⟨g, inner, finish, rfl⟩ := emitBlock_eq_ok (Prod.ext rfl emitted)
  rw [inner, lowered] at allocator
  exact ⟨finish.trans allocator, by rw [emitted, segments_congr own]⟩

theorem emitBlock_of_stopped {d : Context} {first tail : List Item} {item : Item} {why : Failure}
    (own : b.items = first ++ item :: tail) (before : e.lowerAll b.label first = (d, .ok ()))
    (failed : (d.lower item).2 = .error why) :
    (c.emitBlock b).2 = .error (why.annotate b.label (some (.str item.text))) := by
  obtain ⟨answer, -⟩ := lowerAll_congr (c := c.opened b) alike b.label b.items
  have stopped : (e.lowerAll b.label b.items).2 =
      .error (why.annotate b.label (some (.str item.text))) := by
    rw [own, lowerAll_append, before]
    simp only [lowerAll]
    rcases lowered : d.lower item with ⟨g, r⟩
    rw [lowered] at failed
    cases failed
    rfl
  rw [emitBlock_snd, answer, stopped]
  rfl

end Blocks

end Context

/-- A block beside the lines that its items became. -/
structure Written where
  label : Value
  code : List (Item × List Line)

namespace Written

def block (w : Written) : Block := ⟨w.label, w.code.map Prod.fst⟩

def lines (w : Written) : List Line :=
  [.text (w.label.plain ++ ":"), .text ".scope"] ++ w.code.flatMap Prod.snd ++
    [.text ".endscope", .text ""]

/-- What is left of the rows of the block without its label, its scope and the empty row. -/
def kept (w : Written) : List String := (w.code.flatMap Prod.snd).map fun line => line.value.plain

def rows (w : Written) : List String :=
  (w.label.plain ++ ":") :: ".scope" :: w.kept ++ [".endscope", ""]

theorem map_lines (w : Written) : (w.lines.map fun line => line.value.plain) = w.rows := by
  simp [lines, rows, kept, Line.value, Value.plain]

theorem flatMap_kept (written : List Written) : written.flatMap kept =
    ((written.flatMap code).flatMap Prod.snd).map fun line => line.value.plain := by
  induction written with
  | nil => rfl
  | cons w rest ih => simp [kept, ih]

end Written

/-- The label of the block that holds the item at a place. -/
def labelAt : List Block → Nat → Value
  | [], _ => .null
  | b :: rest, n => if n < b.items.length then b.label else labelAt rest (n - b.items.length)

theorem labelAt_of_first {b : Block} {first tail : List Item} {item : Item}
    (own : b.items = first ++ item :: tail) (rest : List Block) :
    labelAt (b :: rest) first.length = b.label := by
  simp [labelAt, own]

theorem labelAt_of_later (b : Block) (rest : List Block) (later : List Item) :
    labelAt (b :: rest) (b.items ++ later).length = labelAt rest later.length := by
  simp [labelAt]

theorem split_append {α : Type} {front more first rest : List α} {item : α}
    (h : front ++ more = first ++ item :: rest) :
    (∃ tail, front = first ++ item :: tail) ∨
      ∃ later, first = front ++ later ∧ more = later ++ item :: rest := by
  rcases List.append_eq_append_iff.mp h with ⟨later, split, others⟩ | ⟨tail, split, others⟩
  · exact .inr ⟨later, split, others⟩
  · cases tail with
    | nil => exact .inr ⟨[], by simpa using split.symm, others.symm⟩
    | cons head tail =>
      cases others
      exact .inl ⟨tail, split⟩

namespace Assembly

theorem blockSection_cons (c : Context) (b : Block) (rest : List Block) :
    (blockSection c (b :: rest)).2 = (c.emitBlock b).2 >>= fun lines =>
      (blockSection (c.emitBlock b).1 rest).2.map fun more => lines ++ .text "" :: more := by
  rw [blockSection]
  rcases emitted : c.emitBlock b with ⟨d, _ | lines⟩
  · rfl
  · change _ = (blockSection d rest).2.map _
    rcases others : blockSection d rest with ⟨e, _ | more⟩ <;> simp only [others] <;> rfl

/-- Where the whole sequence is lowered, each block holds the lines of its items. -/
theorem blockSection_of_lowered {bs : List Block} {is : List Item} (held : bs.flatMap Block.items = is)
    {c d e : Context} (alike : c.allocator = e.allocator)
    (lowered : ∀ label, e.lowerAll label is = (d, .ok ())) :
    ∃ (g : Context) (written : List Written),
      blockSection c bs = (g, .ok (written.flatMap Written.lines)) ∧
      g.allocator = d.allocator ∧ written.map Written.block = bs ∧
      written.flatMap Written.code = e.segments is := by
  induction bs generalizing c e is with
  | nil =>
    cases held
    cases lowered .null
    exact ⟨c, [], rfl, alike, rfl, rfl⟩
  | cons b rest ih =>
    subst held
    have first := fun label => (Context.lowerAll_append_eq_ok (lowered label)).1
    have others := fun label => (Context.lowerAll_append_eq_ok (lowered label)).2
    obtain ⟨next, emitted⟩ := Context.emitBlock_of_lowered alike (first b.label)
    obtain ⟨g, written, listed, finish, blocks, code⟩ := ih rfl next others
    have whole : c.emitBlock b = ((c.emitBlock b).1, .ok _) := Prod.ext rfl emitted
    refine ⟨g, ⟨b.label, e.segments b.items⟩ :: written, ?_, finish, ?_, ?_⟩
    · rw [blockSection, whole]
      simp [listed, Written.lines]
    · rw [List.map_cons, blocks, Written.block, Context.map_fst_segments]
    · rw [List.flatMap_cons, code, List.flatMap_cons, Context.segments_append]

/-- Where an item of the sequence stops it, the block that holds the item is not written. -/
theorem blockSection_of_stopped {bs : List Block} {first rest : List Item} {item : Item}
    (held : bs.flatMap Block.items = first ++ item :: rest) {c d e : Context}
    (alike : c.allocator = e.allocator) (before : ∀ label, e.lowerAll label first = (d, .ok ()))
    {why : Failure} (failed : (d.lower item).2 = .error why) :
    (blockSection c bs).2 =
      .error (why.annotate (labelAt bs first.length) (some (.str item.text))) := by
  induction bs generalizing c e first with
  | nil => simp at held
  | cons b others ih =>
    rw [blockSection_cons]
    rcases split_append held with ⟨tail, own⟩ | ⟨later, rfl, more⟩
    · rw [labelAt_of_first own, Context.emitBlock_of_stopped alike own (before b.label) failed]
      rfl
    · have passed := fun label => (Context.lowerAll_append_eq_ok (before label)).1
      have after := fun label => (Context.lowerAll_append_eq_ok (before label)).2
      obtain ⟨next, emitted⟩ := Context.emitBlock_of_lowered alike (passed b.label)
      rw [labelAt_of_later, emitted, Except.ok_bind, ih more next after]
      rfl

/-- The listing of blocks is that of their items in one context, framed block by block. -/
theorem blockSection_eq_ok {c g : Context} {bs : List Block} {listing : List Line}
    (listed : blockSection c bs = (g, .ok listing)) :
    ∃ (d : Context) (written : List Written),
      (∀ label, c.lowerAll label (bs.flatMap Block.items) = (d, .ok ())) ∧
      g.allocator = d.allocator ∧ listing = written.flatMap Written.lines ∧
      written.map Written.block = bs ∧
      written.flatMap Written.code = c.segments (bs.flatMap Block.items) := by
  rcases c.lowerAll_cases (bs.flatMap Block.items) with
    ⟨d, lowered⟩ | ⟨first, item, rest, d, why, split, before, failed⟩
  · obtain ⟨e, written, sectioned, finish, same, code⟩ := blockSection_of_lowered rfl rfl lowered
    rw [listed] at sectioned
    cases sectioned
    exact ⟨d, written, lowered, finish, rfl, same, code⟩
  · have stopped := blockSection_of_stopped split rfl before failed
    rw [listed] at stopped
    cases stopped

theorem lineTexts_eq_ok {lines : List Line} {texts : List String} (joined : lineTexts lines = .ok texts) :
    (∀ line ∈ lines, ∃ s, line.value = .str s) ∧ texts = lines.map fun line => line.value.plain := by
  induction lines generalizing texts with
  | nil =>
    cases joined
    exact ⟨List.forall_mem_nil _, rfl⟩
  | cons line rest ih =>
    simp only [lineTexts] at joined
    split at joined
    · rename_i s value
      obtain ⟨more, others, rfl⟩ := Except.map_eq_ok.mp joined
      obtain ⟨textual, rfl⟩ := ih others
      rw [List.forall_mem_cons, List.map_cons, value, Value.plain]
      exact ⟨⟨⟨s, rfl⟩, textual⟩, rfl⟩
    · cases joined

theorem assemble_snd (c : Context) (f : Function) (storage : Value) :
    (assemble c f storage).2 = (do
      let header ← headerText f.header
      let listing ← (blockSection c f.blocks).2
      document f header listing storage) := by
  unfold assemble
  cases headerText f.header with
  | error why => rfl
  | ok header => rcases blockSection c f.blocks with ⟨d, _ | listing⟩ <;> rfl

def layout (f : Function) (header : String) (body constants upvalues : List String) : List String :=
  openingLines f header ++ ".instruction" :: body ++ ".const" :: constants ++ ".upvalue" :: upvalues ++
    [".endfn"]

end Assembly

/-- The text is the document of the function, with these lines for its blocks and all of them texts. -/
structure Function.Shows (f : Function) (storage : Value) (written : List Written) (text : String) :
    Prop where
  blocks : written.map Written.block = f.blocks
  textual : ∀ w ∈ written, ∀ line ∈ w.code.flatMap Prod.snd, ∃ s, line.value = .str s
  joined : ∃ header constants upvalues, Assembly.headerText f.header = .ok header ∧
    Assembly.constantSection f.consts = .ok constants ∧
    Assembly.upvalueSection f.upvalues storage = .ok upvalues ∧
    text = String.intercalate "\n"
      (Assembly.layout f header (written.flatMap Written.rows) constants upvalues)

/-- A document that is written shows the lines of all items of the function, lowered in one context. -/
theorem Assembly.assemble_shows {c g : Context} {f : Function} {storage : Value} {text : String}
    (assembled : assemble c f storage = (g, .ok text)) :
    ∃ (d : Context) (written : List Written),
      (∀ label, c.lowerAll label (f.blocks.flatMap Block.items) = (d, .ok ())) ∧
      g.allocator = d.allocator ∧ f.Shows storage written text ∧
      written.flatMap Written.code = c.segments (f.blocks.flatMap Block.items) := by
  unfold assemble at assembled
  split at assembled
  · cases assembled
  · rename_i header headed
    split at assembled
    · rename_i e listing listed
      obtain ⟨rfl, documented⟩ := Prod.mk.inj assembled
      obtain ⟨d, written, lowered, finish, rfl, blocks, code⟩ := blockSection_eq_ok listed
      simp only [document, Except.bind_eq_ok] at documented
      obtain ⟨constants, pooled, upvalues, declared, body, texts, made⟩ := documented
      obtain ⟨textual, rfl⟩ := lineTexts_eq_ok texts
      refine ⟨d, written, lowered, finish, ⟨blocks, ?_, header, constants, upvalues, headed, pooled,
        declared, ?_⟩, code⟩
      · intro w listed line own
        apply textual line
        exact List.mem_flatMap.mpr ⟨w, listed, by simp [Written.lines, own]⟩
      · rw [← Except.ok.inj made]
        simp only [layout, List.map_flatMap, Written.map_lines]
    · cases assembled

end BlockAsm
