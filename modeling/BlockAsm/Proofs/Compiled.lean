import BlockAsm.Pipeline
import BlockAsm.Proofs.BlockListing
import BlockAsm.Proofs.Simulation

/-!
From a compiled function to its lines. Whatever is printed on the way and whichever passes are
switched on, a compilation that succeeds has written the document of the function in a fresh context.
For a function of straight-line code the lines in it simulate it.
-/

namespace BlockAsm

universe u v

open Allocator

namespace Report

variable {α β : Type}

theorem outcome_andThen (r : Report α) (next : α → Report β) :
    (r.andThen next).outcome = r.outcome >>= fun a => (next a).outcome := by
  unfold andThen
  cases r.outcome <;> rfl

theorem andThen_eq_ok {r : Report α} {next : α → Report β} {b : β} :
    (r.andThen next).outcome = .ok b ↔ ∃ a, r.outcome = .ok a ∧ (next a).outcome = .ok b := by
  rw [outcome_andThen, Except.bind_eq_ok]

theorem outcome_bind (r : Report α) (next : α → Report β) :
    (r >>= next).outcome = r.outcome >>= fun a => (next a).outcome := outcome_andThen r next

theorem bind_eq_ok {r : Report α} {next : α → Report β} {b : β} :
    (r >>= next).outcome = .ok b ↔ ∃ a, r.outcome = .ok a ∧ (next a).outcome = .ok b :=
  andThen_eq_ok

end Report

namespace PassConfig

def option? (config : PassConfig) (name : String) : Option Value :=
  match config.options with
  | .object options => Table.get? options name
  | _ => none

/-- The occurrence suffix that the generating pass goes by. -/
def suffix (config : PassConfig) : Value :=
  (config.option? "occurrence_suffix").getD (.str defaultSuffix)

def storage (config : PassConfig) : Value :=
  (config.option? "default_upvalue").getD (.str Assembly.defaultUpvalue)

end PassConfig

/-- The text is the document of the function, written as a configuration says. -/
def GeneratedAs (config : PassConfig) (f : Function) (text : String) : Prop :=
  ∃ c d, Context.create config.suffix f.locals = .ok c ∧
    Assembly.assemble c f config.storage = (d, .ok text)

theorem Config.object_of_asObject {v : Value} {fields : Fields} (given : asObject v = .ok fields) :
    v = .object fields := by
  unfold asObject at given
  split at given
  · cases given
    rfl
  · cases given

/-- What passes can have made of a function if the generating one is configured like this. -/
def Stage.From (config : PassConfig) (f : Function) : Stage → Prop
  | .function g => g = f
  | .assembly text => GeneratedAs config f text

theorem Pass.run_from {pass : Pass} {f : Function} {config : PassConfig} {stage : Stage}
    {m : Metrics} (h : (pass.run f config).outcome = .ok (stage, m)) :
    (pass = .check ∧ stage = .function f) ∨ (pass = .generate ∧ stage.From config f) := by
  cases pass with
  | check =>
    left
    simp only [run, runCheck, Report.bind_eq_ok] at h
    obtain ⟨_, _, h⟩ := h
    cases h
    exact ⟨rfl, rfl⟩
  | generate =>
    right
    simp only [run, runGenerate, Report.bind_eq_ok] at h
    obtain ⟨options, given, c, created, _, _, text, assembled, h⟩ := h
    have object : config.options = .object options := Config.object_of_asObject given
    cases h
    refine ⟨rfl, c, _, ?_, Prod.ext rfl ?_⟩
    · simpa only [PassConfig.suffix, PassConfig.option?, object, Report.ofExcept] using created
    · simpa only [PassConfig.storage, PassConfig.option?, object, Report.ofExcept] using assembled

namespace Pipeline

theorem runPass_from {p : Pipeline} {pass : Pass} {f : Function} {stage : Stage}
    (h : (p.runPass pass f).2.outcome = .ok stage) : stage.From (p.passConfig .generate) f := by
  simp only [runPass, Report.andThen_eq_ok] at h
  obtain ⟨⟨result, m⟩, ⟨_, _, ran⟩, _, _, h⟩ := h
  cases h
  rcases Pass.run_from ran with ⟨rfl, rfl⟩ | ⟨rfl, made⟩
  · rfl
  · exact made

theorem runStations_from {p : Pipeline} {f : Function} {stations : List Station}
    {before after : Stage} (start : before.From (p.passConfig .generate) f)
    (h : (p.runStations before stations).2.outcome = .ok after) :
    after.From (p.passConfig .generate) f := by
  induction stations generalizing before with
  | nil =>
    cases h
    exact start
  | cons s rest ih =>
    unfold runStations at h
    split at h
    · obtain ⟨_, _, later⟩ := Report.andThen_eq_ok.mp h
      exact ih start later
    · cases before with
      | assembly text => cases h
      | function g =>
        cases start
        simp only at h
        split at h
        · rename_i failed
          rw [failed] at h
          cases h
        · rename_i result ran
          obtain ⟨_, _, later⟩ := Report.andThen_eq_ok.mp h
          exact ih (runPass_from ran) later

theorem outcome_runStations {p : Pipeline} (f : Function) (s : Station) (rest : List Station)
    (enabled : (p.passConfig s.pass).enabled.truthy = true) :
    (p.runStations (.function f) (s :: rest)).2.outcome =
      (p.runPass s.pass f).2.outcome >>= fun result => (p.runStations result rest).2.outcome := by
  rw [runStations, enabled]
  simp only [Bool.not_true, Bool.false_eq_true, if_false]
  cases ran : (p.runPass s.pass f).2.outcome with
  | error failure => simp only [ran]; rfl
  | ok result => simp only [Report.andThen, ran]; rfl

theorem outcome_runStations_of_disabled {p : Pipeline} (stage : Stage) (s : Station)
    (rest : List Station) (disabled : (p.passConfig s.pass).enabled.truthy = false) :
    (p.runStations stage (s :: rest)).2.outcome = (p.runStations stage rest).2.outcome := by
  have skipped : (p.skip s.pass).outcome = .ok () := by
    unfold skip
    cases p.printMetrics <;> rfl
  have passed : (p.runStations stage (s :: rest)).2.outcome =
      (p.skip s.pass).outcome >>= fun _ => (p.runStations stage rest).2.outcome := by
    cases stage <;> rw [runStations, disabled] <;> exact Report.outcome_andThen _ _
  rw [passed, skipped]
  rfl

theorem outcome_run (p : Pipeline) (f : Function) : (p.run f).2.outcome =
    (p.announce f).outcome >>= fun _ =>
      (p.runStations (.function f) p.stations).2.outcome >>= fun stage =>
        (p.conclude stage).outcome := by
  unfold run
  cases announced : (p.announce f).outcome with
  | error why =>
    simp only [announced]
    rfl
  | ok _ => simp only [Report.outcome_andThen, announced]

theorem outcome_conclude_function (p : Pipeline) (f : Function) :
    (p.conclude (.function f)).outcome = .error (.unfinished Stage.functionName) := by
  unfold conclude
  cases p.printStages <;> rfl

theorem outcome_conclude_assembly (p : Pipeline) (text : String) :
    (p.conclude (.assembly text)).outcome = .ok text := by
  unfold conclude
  cases p.printStages <;> rfl

theorem outcome_runPass {p : Pipeline} (stages : p.printStages = false)
    (metrics : p.printMetrics = false) (pass : Pass) (f : Function) :
    (p.runPass pass f).2.outcome = (pass.run f (p.passConfig pass)).outcome.map Prod.fst := by
  have reviewed : ∀ result m, (p.review pass f.size result m).outcome = .ok () := by
    intro result m
    rw [review, stages, metrics]
    rfl
  simp only [runPass, Report.outcome_andThen, reviewed]
  change ((pass.run f (p.passConfig pass)).outcome >>= fun r => .ok r.1) = _
  cases (pass.run f (p.passConfig pass)).outcome <;> rfl

theorem conclude_eq_ok {p : Pipeline} {stage : Stage} {text : String}
    (h : (p.conclude stage).outcome = .ok text) : stage = .assembly text := by
  cases stage with
  | function g =>
    rw [outcome_conclude_function] at h
    cases h
  | assembly result =>
    rw [outcome_conclude_assembly] at h
    cases h
    rfl

theorem run_generated {p : Pipeline} {f : Function} {text : String}
    (h : (p.run f).2.outcome = .ok text) : GeneratedAs (p.passConfig .generate) f text := by
  unfold run at h
  simp only at h
  split at h
  · cases h
  · obtain ⟨_, _, h⟩ := Report.andThen_eq_ok.mp h
    obtain ⟨stage, ran, concluded⟩ := Report.andThen_eq_ok.mp h
    have start : Stage.From (p.passConfig .generate) f (.function f) := rfl
    have made := runStations_from start ran
    rw [conclude_eq_ok concluded] at made
    exact made

end Pipeline

def Settings.pipeline (settings : Settings) : Except Failure Pipeline :=
  match settings.config with
  | none => .ok (Pipeline.standard settings.printStages settings.printMetrics)
  | some v => (Pipeline.standard settings.printStages settings.printMetrics).configure v

/-- Settings are made into a pipeline without regard to the function that it is run on. -/
theorem outcome_compile_eq (settings : Settings) (f : Function) :
    (compile settings f).outcome = settings.pipeline >>= fun p => (p.run f).2.outcome := by
  unfold compile Settings.pipeline
  cases settings.config with
  | none => rfl
  | some v =>
    simp only
    cases (Pipeline.standard settings.printStages settings.printMetrics).configure v <;> rfl

/-- How the generating pass is configured under settings that a pipeline can be made of. -/
def Settings.generation (settings : Settings) : PassConfig :=
  match settings.pipeline with
  | .ok p => p.passConfig .generate
  | .error _ => {}

theorem Settings.generation_eq {settings : Settings} {p : Pipeline} (made : settings.pipeline = .ok p) :
    settings.generation = p.passConfig .generate := by
  rw [generation, made]

theorem compile_generatedAs {settings : Settings} {f : Function} {text : String}
    (h : (compile settings f).outcome = .ok text) : GeneratedAs settings.generation f text := by
  rw [outcome_compile_eq, Except.bind_eq_ok] at h
  obtain ⟨p, made, ran⟩ := h
  rw [Settings.generation_eq made]
  exact Pipeline.run_generated ran

theorem Pass.outcome_runGenerate (f : Function) {config : PassConfig} {options : Fields}
    (given : config.options = .object options) :
    (runGenerate f config).outcome.map Prod.fst = (do
      let c ← Context.create ((Table.get? options "occurrence_suffix").getD (.str defaultSuffix))
        f.locals
      let text ← (Assembly.assemble c f
        ((Table.get? options "default_upvalue").getD (.str Assembly.defaultUpvalue))).2
      .ok (.assembly text)) := by
  simp only [runGenerate, given, Config.asObject, Report.outcome_bind, Report.ofExcept,
    Report.noteAll, Except.ok_bind]
  cases Context.create ((Table.get? options "occurrence_suffix").getD (.str defaultSuffix))
    f.locals with
  | error failure => rfl
  | ok c =>
    simp only [Except.ok_bind]
    cases (Assembly.assemble c f
      ((Table.get? options "default_upvalue").getD (.str Assembly.defaultUpvalue))).2 <;> rfl

/-- As shipped, a function is checked, and its document is then written in a fresh context. -/
theorem outcome_compile (f : Function) : (compile {} f).outcome = (do
    Check.function f
    let c ← Context.create (.str defaultSuffix) f.locals
    (Assembly.assemble c f (.str Assembly.defaultUpvalue)).2) := by
  have ran : (compile {} f).outcome = ((Pipeline.standard false false).runStations (.function f)
      [{ pass := .check }, { pass := .generate }]).2.outcome >>= fun stage =>
        ((Pipeline.standard false false).conclude stage).outcome := by
    rw [← Report.outcome_andThen]
    rfl
  have options : ((Pipeline.standard false false).passConfig .generate).options =
      .object [("occurrence_suffix", .str defaultSuffix),
        ("default_upvalue", .str Assembly.defaultUpvalue)] := rfl
  have generated : (Pass.generate.run f
      ((Pipeline.standard false false).passConfig .generate)).outcome.map Prod.fst = (do
        let c ← Context.create (.str defaultSuffix) f.locals
        let text ← (Assembly.assemble c f (.str Assembly.defaultUpvalue)).2
        .ok (.assembly text)) := Pass.outcome_runGenerate f options
  rw [ran, Pipeline.outcome_runStations f _ _ rfl, Pipeline.outcome_runPass rfl rfl]
  cases checked : Check.function f with
  | error failure =>
    simp only [Pass.run, Pass.runCheck, checked]
    rfl
  | ok u =>
    simp only [Pass.run, Pass.runCheck, checked]
    change ((Pipeline.standard false false).runStations (.function f)
      [{ pass := .generate }]).2.outcome >>= _ = _
    rw [Pipeline.outcome_runStations f _ _ rfl, Pipeline.outcome_runPass rfl rfl, generated]
    cases Context.create (.str defaultSuffix) f.locals with
    | error failure => rfl
    | ok c =>
      change (((Assembly.assemble c f (.str Assembly.defaultUpvalue)).2 >>= _) >>= _) >>= _ =
        (Assembly.assemble c f (.str Assembly.defaultUpvalue)).2
      cases (Assembly.assemble c f (.str Assembly.defaultUpvalue)).2 <;> rfl

theorem compile_shipped {f : Function} {c d : Context} {text : String}
    (checked : Check.function f = .ok ())
    (created : Context.create (.str defaultSuffix) f.locals = .ok c)
    (assembled : Assembly.assemble c f (.str Assembly.defaultUpvalue) = (d, .ok text)) :
    (compile {} f).outcome = .ok text := by
  rw [outcome_compile, checked, created]
  exact congrArg Prod.snd assembled

def emptyBlock : Function := { blocks := [{ label := .str "entry" }] }

def Function.Straight (f : Function) : Prop :=
  ∀ b ∈ f.blocks, ∀ item ∈ b.items, ∃ i, item = .instruction i ∧ i.Straight

namespace Context

theorem lower_grows_of_straight (c : Context) {i : Instruction} (straight : i.Straight) :
    Grows c.allocator (c.lower (.instruction i)).1.allocator := by
  obtain ⟨o, tagged, meant, -⟩ := straight
  rcases c.lower_cases (.instruction i) with grown | ⟨_, _, _, _, _, entering, -⟩
  · exact grown
  · simp only [Item.opcode?, tagged, Option.some.injEq] at entering
    rw [entering] at meant
    exact absurd rfl meant

/-- Items of straight-line code only grow the allocator, and each is simulated by its lines under any
map that gives the slots at the end. -/
theorem lowerAll_simulates {c d : Context} {label : Value} {items : List Item}
    (wf : c.allocator.WellFormed)
    (straight : ∀ item ∈ items, ∃ i, item = .instruction i ∧ i.Straight)
    (lowered : c.lowerAll label items = (d, .ok ())) :
    Grows c.allocator d.allocator ∧ ∀ σ, Function.Injective σ → d.allocator.Placed σ →
      ∀ i lines, (.instruction i, lines) ∈ c.segments items → Simulates.{u, v} σ i lines := by
  induction items generalizing c with
  | nil =>
    cases lowered
    exact ⟨.refl, fun σ _ _ i lines membership => nomatch membership⟩
  | cons item rest ih =>
    obtain ⟨i, rfl, straightFirst⟩ := straight item (by simp)
    have grownFirst := c.lower_grows_of_straight straightFirst
    unfold lowerAll at lowered
    split at lowered
    · rename_i e first
      rw [first] at grownFirst
      obtain ⟨grown, simulated⟩ := ih (wf.grows grownFirst)
        (fun other later => straight other (by simp [later])) lowered
      refine ⟨grownFirst.trans grown, ?_⟩
      intro σ injective placed j lines membership
      rw [segments, List.mem_cons] at membership
      rcases membership with here | later
      · cases here
        exact lower_simulates injective wf straightFirst first (grown.placed placed)
      · rw [first] at later
        exact simulated σ injective placed j lines later
    · cases lowered

end Context

/-- A function of straight-line code that compiles has one slot for each name, such that its lines do
in the slots what its instructions do in the named registers, in whichever order these are executed.
As the path is arbitrary, the two agree after every instruction on it. -/
theorem compile_simulates {settings : Settings} {f : Function} {text : String}
    (compiled : (compile settings f).outcome = .ok text) (straight : f.Straight) :
    ∃ (σ : String → Int) (c : Context) (written : List Written), Function.Injective σ ∧
      Context.create settings.generation.suffix f.locals = .ok c ∧
      f.Shows settings.generation.storage written text ∧
      written.flatMap Written.code = c.segments (f.blocks.flatMap Block.items) ∧
      ∀ path : List (Instruction × List Line),
        (∀ p ∈ path, ∃ w ∈ written, (.instruction p.1, p.2) ∈ w.code) →
        ∀ {V : Type u} {M : Type v} (I : Interpretation V M) (s : Store String V M)
          (t : Store Int V M), Agree σ s t →
          ∃ s' t' given, I.runInstructions s (path.map Prod.fst) = some (s', given) ∧
            I.runLines t (path.flatMap Prod.snd) = some (t', given) ∧ Agree σ s' t' := by
  obtain ⟨c, d, created, assembled⟩ := compile_generatedAs compiled
  obtain ⟨e, written, lowered, -, shown, code⟩ := Assembly.assemble_shows assembled
  have seeded := Context.create_seeded created
  obtain ⟨stem, declared⟩ := seeded.grows
  have items : ∀ item ∈ f.blocks.flatMap Block.items, ∃ i, item = .instruction i ∧ i.Straight := by
    intro item membership
    obtain ⟨b, block, own⟩ := List.mem_flatMap.mp membership
    exact straight b block item own
  obtain ⟨grown, simulated⟩ := Context.lowerAll_simulates.{u, v} seeded.wellFormed items (lowered .null)
  obtain ⟨σ, injective, placed⟩ := ((Unshared.empty stem).grows (declared.trans grown)).exists_placed
  refine ⟨σ, c, written, injective, created, shown, code, ?_⟩
  intro path reached V M I s t agree
  apply Simulates.run I _ agree
  intro p membership
  obtain ⟨w, listed, own⟩ := reached p membership
  apply simulated σ injective placed p.1 p.2
  rw [← code]
  exact List.mem_flatMap.mpr ⟨w, listed, own⟩

/-- A function whose second block computes what the first one returns along with a constant. -/
def doubled : Function where
  consts := .list [.int 20, .int 1]
  blocks := [
    { label := .str "exit"
      items := [.instruction { tag := .str "return"
                               args := [.register (.str "b"), .constant (.int 1)] }] },
    { label := .str "entry"
      items := [.instruction { tag := .str "const", dest := some (.register (.str "a"))
                               args := [.constant (.int 0)] },
                .instruction { tag := .str "add", dest := some (.register (.str "b"))
                               args := [.register (.str "a"), .register (.str "a")] }] }]

theorem doubled_straight : doubled.Straight := by
  have plain : ¬ IsScratch "a" ∧ ¬ IsScratch "b" := by decide
  simp only [Function.Straight, doubled, List.mem_cons, List.not_mem_nil, or_false, forall_eq_or_imp,
    forall_eq]
  refine ⟨⟨_, rfl, .ret, rfl, nofun, nofun, ?_⟩, ⟨_, rfl, .loadk, rfl, nofun, ?_, ?_⟩,
    ⟨_, rfl, .arith .add, rfl, nofun, ?_, ?_⟩⟩
  · simp [Instruction.sources, plain]
  · simp
  · simp [Instruction.sources, plain]
  · simp
  · simp [Instruction.sources, plain]

theorem compile_simulates_doubled :
    doubled.Straight ∧ ∃ text, (compile {} doubled).outcome = .ok text ∧
      ∃ (σ : String → Int) (c : Context) (written : List Written), Function.Injective σ ∧
        Context.create (.str defaultSuffix) doubled.locals = .ok c ∧
        doubled.Shows (.str Assembly.defaultUpvalue) written text ∧
        written.flatMap Written.code = c.segments (doubled.blocks.flatMap Block.items) ∧
        ∀ path : List (Instruction × List Line),
          (∀ p ∈ path, ∃ w ∈ written, (.instruction p.1, p.2) ∈ w.code) →
          ∀ {V M : Type} (I : Interpretation V M) (s : Store String V M) (t : Store Int V M),
            Agree σ s t →
            ∃ s' t' given, I.runInstructions s (path.map Prod.fst) = some (s', given) ∧
              I.runLines t (path.flatMap Prod.snd) = some (t', given) ∧ Agree σ s' t' := by
  have checked : Check.function doubled = .ok () := by cbv
  obtain ⟨d, text, assembled⟩ : ∃ d text, Assembly.assemble Context.fresh doubled
      (.str Assembly.defaultUpvalue) = (d, .ok text) := ⟨_, _, rfl⟩
  have compiled := compile_shipped checked Context.create_default assembled
  exact ⟨doubled_straight, text, compiled, compile_simulates compiled doubled_straight⟩

end BlockAsm
