import BlockAsm.Proofs.ConstantPool
import BlockAsm.Proofs.RenamedFunctions

/-!
What a configuration decides. Whatever is printed on the way, the two standard passes come to a chain of
a listing, the checks and the document, and a configuration enters it by four values: whether each pass
is switched on, the occurrence suffix, and the storage for a function without upvalues. A document that
is laid over the shipped configuration replaces whole entries. Nevertheless each of the four values is
the document's where it gives one and the shipped one otherwise, since what is taken for a missing field
is what is shipped.
-/

namespace BlockAsm

namespace Pipeline

section Chain

variable (p : Pipeline) (f : Function)

def listing : Except Failure Unit :=
  if p.printStages then (Listing.printFunction f).outcome else .ok ()

/-- The options of a pass are shown, if metrics are printed. -/
def measuring (pass : Pass) : Except Failure Unit :=
  if p.printMetrics then (Config.asObject (p.passConfig pass).options).map fun _ => () else .ok ()

variable {p} in
theorem measuring_of_object {pass : Pass} (object : p.printMetrics = true →
    ∃ options, (p.passConfig pass).options = .object options) : p.measuring pass = .ok () := by
  unfold measuring
  split
  · rename_i metrics
    obtain ⟨options, given⟩ := object metrics
    simp only [given, Config.asObject, Except.map]
  · rfl

def checking : Except Failure Unit :=
  if (p.passConfig .check).enabled.truthy then Check.function f >>= fun _ => p.measuring .check
  else .ok ()

def generating : Except Failure String :=
  if (p.passConfig .generate).enabled.truthy then do
    let _ ← Config.asObject (p.passConfig .generate).options
    let c ← Context.create (p.passConfig .generate).suffix f.locals
    (Assembly.assemble c f (p.passConfig .generate).storage).2
  else .error (.unfinished Stage.functionName)

theorem outcome_announce : (p.announce f).outcome = p.listing f := by
  unfold announce listing
  cases p.printStages with
  | false => rfl
  | true =>
    simp only [if_true, Report.outcome_bind, Report.outcome_printAll]
    rfl

theorem outcome_printStage_assembly (pass : Pass) (text : String) :
    (printStage pass (.assembly text)).outcome = .ok () := by
  simp only [printStage, Listing.printAssembly, Report.outcome_bind, Report.outcome_printAll]
  rfl

theorem outcome_review (pass : Pass) (before : Nat) (result : Stage) (m : Metrics) :
    (p.review pass before result m).outcome = p.measuring pass >>= fun _ =>
      if p.printStages then (printStage pass result).outcome else .ok () := by
  have staged : (if p.printStages = true then printStage pass result else pure ()).outcome =
      if p.printStages then (printStage pass result).outcome else .ok () := by
    cases p.printStages <;> rfl
  unfold review measuring
  cases p.printMetrics with
  | false => exact staged
  | true =>
    simp only [if_true, Report.outcome_bind, outcome_printPassMetrics, staged]

theorem outcome_runPass_eq (pass : Pass) : (p.runPass pass f).2.outcome =
    (pass.run f (p.passConfig pass)).outcome >>= fun r =>
      (p.review pass f.size r.1 r.2).outcome.map fun _ => r.1 := by
  simp only [runPass, Report.outcome_andThen]
  rfl

/-- The function is listed a second time after the checks, which does not fail if it did not before. -/
theorem outcome_runPass_check (listed : p.listing f = .ok ()) : (p.runPass .check f).2.outcome =
    Check.function f >>= fun _ => (p.measuring .check).map fun _ => .function f := by
  have again : (if p.printStages then (printStage .check (.function f)).outcome else .ok ()) =
      Except.ok () := listed
  simp only [outcome_runPass_eq, outcome_review, Pass.run, Pass.runCheck, Report.outcome_bind]
  cases Check.function f with
  | error why => rfl
  | ok _ =>
    change ((p.measuring .check >>= fun _ =>
      if p.printStages then (printStage .check (.function f)).outcome else .ok ()).map _) = _
    rw [again]
    cases p.measuring .check <;> rfl

/-- The options are looked at before anything is written, so showing them does not fail. -/
theorem outcome_runPass_generate : (p.runPass .generate f).2.outcome = (do
    let _ ← Config.asObject (p.passConfig .generate).options
    let c ← Context.create (p.passConfig .generate).suffix f.locals
    (Assembly.assemble c f (p.passConfig .generate).storage).2.map .assembly) := by
  have shown : ∀ options, (p.passConfig .generate).options = .object options →
      p.measuring .generate = .ok () := by
    intro options given
    exact measuring_of_object fun _ => ⟨options, given⟩
  have staged : ∀ text, (if p.printStages then (printStage .generate (.assembly text)).outcome
      else .ok ()) = Except.ok () := by
    intro text
    rw [outcome_printStage_assembly, ite_self]
  simp only [outcome_runPass_eq, outcome_review, Pass.run, Pass.runGenerate, Report.outcome_bind,
    Report.ofExcept, Report.noteAll]
  cases given : (p.passConfig .generate).options with
  | object options =>
    simp only [Config.asObject, Except.ok_bind, PassConfig.suffix, PassConfig.storage,
      PassConfig.option?, given, shown options given]
    cases Context.create ((Table.get? options "occurrence_suffix").getD (.str defaultSuffix))
      f.locals with
    | error why => rfl
    | ok c =>
      simp only [Except.ok_bind]
      cases (Assembly.assemble c f
        ((Table.get? options "default_upvalue").getD (.str Assembly.defaultUpvalue))).2 with
      | error why => rfl
      | ok text => exact congrArg (Except.map _) (staged text)
  | _ => rfl

theorem outcome_generate_station {s : Station} (generates : s.pass = .generate) :
    ((p.runStations (.function f) [s]).2.outcome >>= fun stage => (p.conclude stage).outcome) =
      p.generating f := by
  unfold generating
  cases enabled : (p.passConfig .generate).enabled.truthy with
  | false =>
    rw [outcome_runStations_of_disabled _ _ _ (by rw [generates, enabled])]
    exact p.outcome_conclude_function f
  | true =>
    rw [outcome_runStations f s [] (by rw [generates, enabled]), generates, outcome_runPass_generate]
    cases Config.asObject (p.passConfig .generate).options with
    | error why => rfl
    | ok options =>
      simp only [Except.ok_bind, if_true]
      cases Context.create (p.passConfig .generate).suffix f.locals with
      | error why => rfl
      | ok c =>
        simp only [Except.ok_bind]
        cases (Assembly.assemble c f (p.passConfig .generate).storage).2 with
        | error why => rfl
        | ok text => exact p.outcome_conclude_assembly text

theorem outcome_check_station (listed : p.listing f = .ok ()) {s : Station} (checks : s.pass = .check)
    (rest : List Station) : (p.runStations (.function f) (s :: rest)).2.outcome =
      p.checking f >>= fun _ => (p.runStations (.function f) rest).2.outcome := by
  unfold checking
  cases enabled : (p.passConfig .check).enabled.truthy with
  | false => exact outcome_runStations_of_disabled _ _ _ (by rw [checks, enabled])
  | true =>
    rw [outcome_runStations f s rest (by rw [checks, enabled]), checks,
      p.outcome_runPass_check f listed]
    cases Check.function f with
    | error why => rfl
    | ok _ =>
      simp only [Except.ok_bind, if_true]
      cases p.measuring .check <;> rfl

/-- The standard passes are a chain of the listing, the checks and the document. -/
theorem outcome_run_standard (standard : p.stations.map Station.pass = [.check, .generate]) :
    (p.run f).2.outcome = (do
      p.listing f
      p.checking f
      p.generating f) := by
  obtain ⟨first, rest, stations, checks, others⟩ := List.map_eq_cons_iff.mp standard
  obtain ⟨second, none, rfl, generates, empty⟩ := List.map_eq_cons_iff.mp others
  cases List.map_eq_nil_iff.mp empty
  rw [outcome_run, outcome_announce, stations]
  cases listed : p.listing f with
  | error why => rfl
  | ok _ =>
    simp only [Except.ok_bind, p.outcome_check_station f listed checks]
    cases p.checking f with
    | error why => rfl
    | ok _ => exact p.outcome_generate_station f generates

end Chain

end Pipeline

def answered (r : Except Failure String) : Except Failure (Except Diagnostic String) :=
  match r with
  | .ok text => .ok (.ok text)
  | .error (.refused d) => .ok (.error d)
  | .error why => .error why

theorem outcome_compileFunction (settings : Settings) (f : Function) :
    (compileFunction settings f).outcome = answered (compile settings f).outcome := by
  cases compiled : (compile settings f).outcome with
  | ok text => simp only [compileFunction, compiled, answered]
  | error why => cases why <;> simp only [compileFunction, compiled, answered]

namespace Table

variable {ν κ α β : Type} [Keyed ν κ] [DecidableEq κ]

theorem get?_map (t : Table ν α) (g : α → β) (k : κ) :
    get? (t.map fun e => (e.1, g e.2)) k = (get? t k).map g := by
  induction t with
  | nil => rfl
  | cons e rest ih =>
    simp only [List.map_cons, get?, ih]
    split <;> rfl

/-- Where entries are written over others, they are what is found, if no name is written twice. -/
theorem get?_update (t : Table ν α) {entries : Table ν α} (distinct : (keys entries).Nodup) (k : κ) :
    get? (update t entries) k = (get? entries k).or (get? t k) := by
  induction entries generalizing t with
  | nil => rfl
  | cons e rest ih =>
    obtain ⟨fresh, others⟩ := List.nodup_cons.mp distinct
    have written : get? (update t (e :: rest)) k = (get? rest k).or (get? (set t e.1 e.2) k) :=
      ih (set t e.1 e.2) others
    rw [written, get?_set, get?]
    by_cases here : Keyed.key e.1 = k
    · subst here
      have absent : get? rest (Keyed.key e.1) = none := (get?_eq_none_iff rest _).mpr fresh
      simp [absent]
    · simp [here, Ne.symm here]

end Table

/-- What a path of field names leads to in nested objects. -/
def Value.at? : Value → List String → Option Value
  | v, [] => some v
  | .object fields, name :: path => (Table.get? fields name).bind fun v => v.at? path
  | _, _ :: _ => none

theorem Value.at?_field (fields : Fields) (name : String) :
    (object fields).at? [name] = Table.get? fields name := by
  simp [at?]

theorem Value.at?_append (v : Value) (first second : List String) :
    v.at? (first ++ second) = (v.at? first).bind fun w => w.at? second := by
  induction first generalizing v with
  | nil => cases v <;> rfl
  | cons name path ih =>
    cases v with
    | object fields => simp only [List.cons_append, at?, Option.bind_assoc, ih]
    | _ => rfl

/-- A configuration document in which passes, their entries and their options are objects wherever they
are given. -/
structure Config.Layer (user : Value) : Prop where
  object : ∃ fields, user = .object fields
  passes : ∀ v, user.at? ["passes"] = some v →
    ∃ entries : Fields, v = .object entries ∧ (Table.keys entries).Nodup
  entries : ∀ name v, user.at? ["passes", name] = some v → ∃ fields, v = .object fields
  options : ∀ name v, user.at? ["passes", name, "options"] = some v → ∃ options, v = .object options

theorem Config.layer_of_entries {passes : Fields} (distinct : (Table.keys passes).Nodup)
    (entries : ∀ e ∈ passes, ∃ fields : Fields, e.2 = .object fields ∧
      ∀ v, Table.get? fields "options" = some v → ∃ options, v = .object options) :
    Layer (.object [("passes", .object passes)]) := by
  have below : ∀ path, (Value.object [("passes", .object passes)]).at? ("passes" :: path) =
      (Value.object passes).at? path := fun path => rfl
  have entry : ∀ name v, Table.get? passes name = some v → ∃ fields : Fields, v = .object fields ∧
      ∀ v, Table.get? fields "options" = some v → ∃ options, v = .object options := by
    intro name v found
    obtain ⟨m, listed, -⟩ := Table.exists_mem_of_get? found
    exact entries (m, v) listed
  refine ⟨⟨_, rfl⟩, ?_, ?_, ?_⟩
  · intro v given
    cases given
    exact ⟨passes, rfl, distinct⟩
  · intro name v given
    rw [below, Value.at?_field] at given
    obtain ⟨fields, object, -⟩ := entry name v given
    exact ⟨fields, object⟩
  · intro name v given
    rw [below] at given
    obtain ⟨w, own, options⟩ := Option.bind_eq_some_iff.mp given
    obtain ⟨fields, rfl, objects⟩ := entry name w own
    apply objects
    rwa [Value.at?_field] at options

/-- The shipped configuration as a document. -/
def Config.shippedDocument : Value :=
  .object [("passes", .object [
    (Pass.check.name, .object [("enabled", .bool true)]),
    (Pass.generate.name, .object [("enabled", .bool true),
      ("options", .object [("occurrence_suffix", .str defaultSuffix),
        ("default_upvalue", .str Assembly.defaultUpvalue)])])])]

theorem Config.ofDocument_shippedDocument : ofDocument shippedDocument = .ok shipped := rfl

/-- The value of a field in a user's document if it is there, and else the shipped one. -/
def Config.layered (user : Value) (path : List String) : Value :=
  ((user.at? path).or (shippedDocument.at? path)).getD .null

structure Choices where
  check : Value
  generate : Value
  suffix : Value
  storage : Value

namespace Choices

def of (user : Value) : Choices where
  check := Config.layered user ["passes", Pass.check.name, "enabled"]
  generate := Config.layered user ["passes", Pass.generate.name, "enabled"]
  suffix := Config.layered user ["passes", Pass.generate.name, "options", "occurrence_suffix"]
  storage := Config.layered user ["passes", Pass.generate.name, "options", "default_upvalue"]

def document (choices : Choices) : Value :=
  .object [("passes", .object [
    (Pass.check.name, .object [("enabled", choices.check)]),
    (Pass.generate.name, .object [("enabled", choices.generate),
      ("options", .object [("occurrence_suffix", choices.suffix),
        ("default_upvalue", choices.storage)])])])]

/-- The text of a function by the choices alone. Where stages are printed, the function has to be one
that can be listed. -/
def compile (choices : Choices) (printStages : Bool) (f : Function) : Except Failure String :=
  (if printStages then (Listing.printFunction f).outcome else .ok ()) >>= fun _ =>
    (if choices.check.truthy then Check.function f else .ok ()) >>= fun _ =>
      if choices.generate.truthy then do
        let c ← Context.create choices.suffix f.locals
        (Assembly.assemble c f choices.storage).2
      else .error (.unfinished Stage.functionName)

end Choices

namespace Config

def entry (v : Value) : PassConfig where
  enabled := (v.at? ["enabled"]).getD (.bool true)
  options := (v.at? ["options"]).getD (.object [])

theorem entries_eq {passes : Fields} (objects : ∀ e ∈ passes, ∃ fields, e.2 = .object fields) :
    entries passes = .ok (passes.map fun e => (e.1, entry e.2)) := by
  induction passes with
  | nil => rfl
  | cons e rest ih =>
    obtain ⟨name, v⟩ := e
    obtain ⟨fields, rfl⟩ : ∃ fields, v = .object fields := objects (name, v) (by simp)
    have more := ih fun other later => objects other (by simp [later])
    simp only [entries, asObject, more, Except.ok_bind, List.map_cons, entry, Value.at?_field]

section Layer

variable {user : Value} (layer : Layer user)

include layer

theorem Layer.ofDocument : ∃ entries : Config, Config.ofDocument user = .ok entries ∧
    (Table.keys entries).Nodup ∧
    ∀ name, Table.get? entries name = (user.at? ["passes", name]).map entry := by
  obtain ⟨fields, rfl⟩ := layer.object
  cases given : Table.get? fields "passes" with
  | none =>
    refine ⟨[], ?_, List.nodup_nil, ?_⟩
    · simp [Config.ofDocument, asObject, given, Config.entries, Except.ok_bind]
    · intro name
      simp [Value.at?, given, Table.get?]
  | some v =>
    obtain ⟨passes, rfl, distinct⟩ := layer.passes v (by rw [Value.at?_field, given])
    have found : ∀ name, (Value.object fields).at? ["passes", name] = Table.get? passes name := by
      intro name
      simp [Value.at?, given]
    have objects : ∀ e ∈ passes, ∃ fields, e.2 = .object fields := by
      intro e listed
      apply layer.entries e.1
      rw [found]
      exact Table.get?_of_mem distinct listed
    refine ⟨passes.map fun e => (e.1, entry e.2), ?_, ?_, ?_⟩
    · simp only [Config.ofDocument, asObject, given, Option.getD_some, Except.ok_bind]
      exact entries_eq objects
    · simpa [Table.keys, Function.comp_def] using distinct
    · intro name
      rw [Table.get?_map, found]

end Layer

theorem getD_at?_layered {user shippedEntry default : Value} {entry rest : List String}
    (shipped : shippedDocument.at? entry = some shippedEntry)
    (given : shippedEntry.at? rest = some default) :
    ((((user.at? entry).getD shippedEntry).at? rest).getD default) = layered user (entry ++ rest) := by
  simp only [layered, Value.at?_append, shipped, Option.bind_some, given]
  cases user.at? entry with
  | none => simp [given]
  | some v =>
    simp only [Option.getD_some, Option.bind_some]
    cases v.at? rest <;> rfl

theorem option?_entry (v : Value) (name : String) :
    (entry v).option? name = v.at? ["options", name] := by
  have path : v.at? ["options", name] = (v.at? ["options"]).bind fun w => w.at? [name] :=
    v.at?_append ["options"] [name]
  rw [path, PassConfig.option?, entry]
  cases v.at? ["options"] with
  | none => rfl
  | some w =>
    cases w with
    | object options => exact (Value.at?_field options name).symm
    | _ => rfl

def shippedEntry (pass : Pass) : Value :=
  (shippedDocument.at? ["passes", pass.name]).getD .null

theorem at?_shippedDocument (pass : Pass) :
    shippedDocument.at? ["passes", pass.name] = some (shippedEntry pass) := by
  cases pass <;> rfl

section Layer

variable {user : Value} (layer : Layer user) (settings : Settings)
  (given : settings.config = some user)

include layer

theorem Layer.exists_options (pass : Pass) : ∃ options : Fields,
    (entry ((user.at? ["passes", pass.name]).getD (shippedEntry pass))).options = .object options := by
  have path : ∀ v, user.at? ["passes", pass.name] = some v →
      v.at? ["options"] = user.at? ["passes", pass.name, "options"] := by
    intro v found
    have whole := user.at?_append ["passes", pass.name] ["options"]
    rw [found] at whole
    exact whole.symm
  cases found : user.at? ["passes", pass.name] with
  | none => cases pass <;> exact ⟨_, rfl⟩
  | some v =>
    simp only [entry, Option.getD_some, path v found]
    cases own : user.at? ["passes", pass.name, "options"] with
    | none => exact ⟨[], rfl⟩
    | some options => exact layer.options pass.name options own

include given

/-- A layer replaces the entries of the passes that it names. -/
theorem Layer.pipeline : ∃ p, settings.pipeline = .ok p ∧
    p.stations.map Station.pass = [.check, .generate] ∧ p.printStages = settings.printStages ∧
    ∀ pass, p.passConfig pass =
      entry ((user.at? ["passes", pass.name]).getD (shippedEntry pass)) := by
  obtain ⟨entries, read, distinct, found⟩ := layer.ofDocument
  refine ⟨{ Pipeline.standard settings.printStages settings.printMetrics with
    config := Table.update Config.shipped entries }, ?_, rfl, rfl, ?_⟩
  · simp only [Settings.pipeline, given, Pipeline.configure, Config.apply, read]
    rfl
  · intro pass
    have shipped : Table.get? Config.shipped pass.name = some (entry (shippedEntry pass)) := by
      cases pass <;> rfl
    simp only [Pipeline.passConfig, Table.get?_update _ distinct, found, shipped]
    cases user.at? ["passes", pass.name] <;> rfl

/-- Under a layer the outcome depends on the choices alone. -/
theorem Layer.outcome_compile (f : Function) :
    (compile settings f).outcome = (Choices.of user).compile settings.printStages f := by
  obtain ⟨p, configured, standard, stages, entries⟩ := layer.pipeline settings given
  have enabled : ∀ pass, (p.passConfig pass).enabled =
      layered user ["passes", pass.name, "enabled"] := by
    intro pass
    rw [entries]
    exact getD_at?_layered (at?_shippedDocument pass) (by cases pass <;> rfl)
  have suffix : (p.passConfig .generate).suffix = (Choices.of user).suffix := by
    rw [entries, PassConfig.suffix, option?_entry]
    exact getD_at?_layered (at?_shippedDocument .generate) rfl
  have storage : (p.passConfig .generate).storage = (Choices.of user).storage := by
    rw [entries, PassConfig.storage, option?_entry]
    exact getD_at?_layered (at?_shippedDocument .generate) rfl
  have object : ∀ pass, ∃ options, Config.asObject (p.passConfig pass).options = .ok options := by
    intro pass
    obtain ⟨options, own⟩ := layer.exists_options pass
    exact ⟨options, by rw [entries, own, asObject]⟩
  obtain ⟨options, generated⟩ := object .generate
  have measured : p.measuring .check = .ok () := by
    obtain ⟨options, checked⟩ := object .check
    exact Pipeline.measuring_of_object fun _ => ⟨options, object_of_asObject checked⟩
  have checking : p.checking f =
      if (Choices.of user).check.truthy then Check.function f else .ok () := by
    simp only [Pipeline.checking, enabled, measured]
    cases Check.function f <;> rfl
  simp only [outcome_compile_eq, configured, Except.ok_bind, p.outcome_run_standard f standard,
    Pipeline.listing, checking, Pipeline.generating, stages, enabled, suffix, storage, generated]
  rfl

end Layer

end Config

namespace Choices

theorem of_document (choices : Choices) : of choices.document = choices := rfl

theorem document_layer (choices : Choices) : Config.Layer choices.document := by
  apply Config.layer_of_entries
  · change [Pass.check.name, Pass.generate.name].Nodup
    decide
  · intro e listed
    simp only [List.mem_cons, List.not_mem_nil, or_false] at listed
    rcases listed with rfl | rfl
    · exact ⟨_, rfl, fun v given => by cases given⟩
    · refine ⟨_, rfl, fun v given => ?_⟩
      cases given
      exact ⟨_, rfl⟩

end Choices

/-- With a configuration laid over the shipped one, the outcome for a function is that of the choices
taken field by field, and the same as with a document that states all of them. -/
theorem compileFunction_layered {user : Value} (layer : Config.Layer user)
    (printStages printMetrics : Bool) (f : Function) :
    (compileFunction ⟨some user, printStages, printMetrics⟩ f).outcome =
        answered ((Choices.of user).compile printStages f) ∧
      (compileFunction ⟨some user, printStages, printMetrics⟩ f).outcome =
        (compileFunction ⟨some (Choices.of user).document, printStages, printMetrics⟩ f).outcome := by
  have compiled := layer.outcome_compile ⟨some user, printStages, printMetrics⟩ rfl f
  have stated := (Choices.of user).document_layer.outcome_compile
    ⟨some (Choices.of user).document, printStages, printMetrics⟩ rfl f
  rw [Choices.of_document] at stated
  simp only [outcome_compileFunction, compiled, stated, and_self]

/-- A document with one option of one pass and with a pass that is not there. -/
def storageDocument : Value :=
  .object [("passes", .object [
    (Pass.generate.name, .object [("options", .object [("default_upvalue", .str "L1 R2")])]),
    ("peephole", .object [("enabled", .bool false)])])]

theorem compileFunction_layered_at_storageDocument :
    Config.Layer storageDocument ∧ Choices.of storageDocument =
        ⟨.bool true, .bool true, .str defaultSuffix, .str "L1 R2"⟩ ∧
      (compileFunction ⟨some storageDocument, true, true⟩ emptyBlock).outcome =
        .ok (.ok (String.intercalate "\n" [".fn @anonymous", ".header", "", "", ".instruction", "entry:",
          ".scope", ".endscope", "", ".const", ".upvalue", "U0 = L1 R2", ".endfn"])) ∧
      (compileFunction ⟨some storageDocument, true, true⟩ emptyBlock).outcome =
        (compileFunction ⟨some (Choices.of storageDocument).document, true, true⟩
          emptyBlock).outcome := by
  have layer : Config.Layer storageDocument := by
    apply Config.layer_of_entries
    · change [Pass.generate.name, "peephole"].Nodup
      decide
    · intro e listed
      simp only [List.mem_cons, List.not_mem_nil, or_false] at listed
      rcases listed with rfl | rfl
      · refine ⟨_, rfl, fun v given => ?_⟩
        cases given
        exact ⟨_, rfl⟩
      · exact ⟨_, rfl, fun v given => by cases given⟩
  obtain ⟨own, stated⟩ := compileFunction_layered layer true true emptyBlock
  exact ⟨layer, rfl, own.trans (by cbv), stated⟩

end BlockAsm
