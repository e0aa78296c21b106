import BlockAsm.Assembly
import BlockAsm.Check
import BlockAsm.Listing

/-!
Pipelines of passes. The checking pass leaves a function as it is or refuses it; the generating pass
turns it into an assembly text. Passes are configured by name: each can be switched off and takes
options. A pass must find the kind of program it takes, and a run has to end with an assembly text.
-/

namespace BlockAsm

structure PassConfig where
  enabled : Value := .bool true
  options : Value := .object []
  deriving Repr

abbrev Config := Table String PassConfig

namespace Config

def asObject (v : Value) : Except Failure Fields :=
  match v with
  | .object fields => .ok fields
  | v => .error (.fault (.notObject v))

def entries : Fields → Except Failure Config
  | [] => .ok []
  | (name, v) :: rest => do
    let fields ← asObject v
    let more ← entries rest
    .ok ((name, { enabled := (Table.get? fields "enabled").getD (.bool true),
                  options := (Table.get? fields "options").getD (.object []) }) :: more)

def ofDocument (v : Value) : Except Failure Config := do
  let fields ← asObject v
  let passes ← asObject ((Table.get? fields "passes").getD (.object []))
  entries passes

/-- Lays a document over a configuration, entry by entry; a bad document changes nothing. -/
def apply (c : Config) (v : Value) : Except Failure Config :=
  (ofDocument v).map fun d => Table.update c d

end Config

inductive Pass where
  | check
  | generate
  deriving DecidableEq, Repr

inductive Stage where
  | function (f : Function)
  | assembly (text : String)

namespace Stage

def functionName : String := "lir"

def assemblyName : String := "lbasm"

def name : Stage → String
  | .function _ => functionName
  | .assembly _ => assemblyName

end Stage

namespace Pass

def name : Pass → String
  | .check => "lir-verify"
  | .generate => "lbasm-codegen"

/-- The kind of program that a pass makes of a function. -/
def outputName : Pass → String
  | .check => Stage.functionName
  | .generate => Stage.assemblyName

end Pass

structure Metrics where
  counts : Fields := []
  remarks : List String := []
  deriving Repr

def Config.shipped : Config :=
  [(Pass.check.name, {}),
   (Pass.generate.name,
     { options := .object [("occurrence_suffix", .str defaultSuffix),
                           ("default_upvalue", .str Assembly.defaultUpvalue)] })]

namespace Pass

def checkMetrics (f : Function) : Metrics :=
  { counts := [("blocks", .int f.blocks.length), ("instructions", .int f.size)] }

def groupRemark (group : Name × Int) : String :=
  "loop '" ++ group.1.value.plain ++ "' -> R" ++ toString group.2 ++ "..R" ++ toString (group.2 + 3)

def generateMetrics (a : Allocator) : Metrics :=
  { counts := [("registers_used", .int a.used), ("named_registers", .int a.names.length),
               ("loop_groups", .int a.groups.length)]
    remarks := a.groups.map groupRemark }

def runGenerate (f : Function) (config : PassConfig) : Report (Stage × Metrics) := do
  let options ← Report.ofExcept (Config.asObject config.options)
  let suffix := (Table.get? options "occurrence_suffix").getD (.str defaultSuffix)
  let storage := (Table.get? options "default_upvalue").getD (.str Assembly.defaultUpvalue)
  let context ← Report.ofExcept (Context.create suffix f.locals)
  let (final, result) := Assembly.assemble context f storage
  Report.noteAll (final.takeovers.map Note.takeover)
  let text ← Report.ofExcept result
  return (.assembly text, generateMetrics final.allocator)

def runCheck (f : Function) : Report (Stage × Metrics) := do
  Report.ofExcept (Check.function f)
  return (.function f, checkMetrics f)

def run (pass : Pass) (f : Function) (config : PassConfig) : Report (Stage × Metrics) :=
  match pass with
  | .check => runCheck f
  | .generate => runGenerate f config

end Pass

/-- A pass in its place in a pipeline, with the metrics of its last run. -/
structure Station where
  pass : Pass
  metrics : Option Metrics := none
  deriving Repr

structure Pipeline where
  stations : List Station := []
  config : Config := []
  printStages : Bool := false
  printMetrics : Bool := false

namespace Pipeline

def rule (c : Char) : String := String.ofList (List.replicate 60 c)

def optionsText (options : Fields) : String :=
  let text := Value.commaSeparated (options.map fun o => o.1 ++ "=" ++ o.2.plain)
  if text.isEmpty then "(default)" else text

def printOwnMetrics (m : Metrics) : Report Unit := do
  if !m.counts.isEmpty then
    Report.print ("Custom metrics: " ++ (Value.object m.counts).plain)
  if !m.remarks.isEmpty then
    Report.print "Diagnostics:"
    Report.printAll (m.remarks.map ("  - " ++ ·))

def printPassMetrics (pass : Pass) (config : PassConfig) (before : Nat) (result : Stage)
    (m : Metrics) : Report Unit := do
  let output := match result with
    | .function _ => "LIR"
    | .assembly _ => "LBASM"
  Report.print ("\n=== Pass: " ++ pass.name ++ " (LIR → " ++ output ++ ") ===")
  let options ← Report.ofExcept (Config.asObject config.options)
  Report.print ("Config: " ++ optionsText options)
  match result with
  | .function f => do
    Report.print ("Instructions: " ++ toString before ++ " -> " ++ toString f.size)
    Report.print ("Blocks: " ++ toString f.blocks.length)
  | .assembly text =>
    Report.print ("LIR instructions: " ++ toString before ++ " -> LBASM lines: " ++
      toString (Text.lineCount text))
  printOwnMetrics m

def printStage (pass : Pass) (result : Stage) : Report Unit := do
  Report.print (rule '-')
  Report.print ("After " ++ pass.name ++ ":")
  Report.print (rule '-')
  match result with
  | .function f => Listing.printFunction f
  | .assembly text => Listing.printAssembly text

def passConfig (p : Pipeline) (pass : Pass) : PassConfig :=
  (Table.get? p.config pass.name).getD {}

def skip (p : Pipeline) (pass : Pass) : Report Unit := do
  Report.note (.skipped pass.name)
  if p.printMetrics then
    Report.print ("\n=== Pass: " ++ pass.name ++ " === (SKIPPED - disabled)")

/-- Prints what is asked for after a pass. -/
def review (p : Pipeline) (pass : Pass) (before : Nat) (result : Stage) (m : Metrics) :
    Report Unit := do
  if p.printMetrics then
    printPassMetrics pass (p.passConfig pass) before result m
  if p.printStages then
    printStage pass result

/-- Runs one pass on a function. Its metrics are empty if it fails. -/
def runPass (p : Pipeline) (pass : Pass) (f : Function) : Metrics × Report Stage :=
  let started := Report.note (.running pass.name Stage.functionName pass.outputName)
  let run := started.andThen fun _ => pass.run f (p.passConfig pass)
  let metrics := match run.outcome with
    | .ok (_, m) => m
    | .error _ => {}
  (metrics, run.andThen fun (result, m) =>
    (p.review pass f.size result m).andThen fun _ => .done result)

/-- Runs the stations in order; those after a failure keep their metrics. -/
def runStations (p : Pipeline) (stage : Stage) : List Station → List Station × Report Stage
  | [] => ([], .done stage)
  | s :: rest =>
    if !(p.passConfig s.pass).enabled.truthy then
      let after := p.runStations stage rest
      (s :: after.1, (p.skip s.pass).andThen fun _ => after.2)
    else
      match stage with
      | .assembly _ =>
        (s :: rest, .fail (.passMismatch s.pass.name Stage.functionName stage.name))
      | .function f =>
        let (metrics, report) := p.runPass s.pass f
        let here : Station := { s with metrics := some metrics }
        match report.outcome with
        | .error _ => (here :: rest, report)
        | .ok result =>
          let after := p.runStations result rest
          (here :: after.1, report.andThen fun _ => after.2)

def announce (p : Pipeline) (f : Function) : Report Unit := do
  if p.printStages then
    Report.printAll ["\n" ++ rule '=', "COMPILATION START", rule '=']
    Listing.printFunction f

def conclude (p : Pipeline) (stage : Stage) : Report String := do
  if p.printStages then
    Report.printAll [rule '=', "COMPILATION END", rule '=' ++ "\n"]
  match stage with
  | .assembly text => Report.done text
  | .function _ => Report.fail (.unfinished stage.name)

def run (p : Pipeline) (f : Function) : Pipeline × Report String :=
  let start := p.announce f
  match start.outcome with
  | .error failure => (p, ⟨start.transcript, .error failure⟩)
  | .ok () =>
    let (stations, report) := p.runStations (.function f) p.stations
    ({ p with stations := stations },
      start.andThen fun _ => report.andThen fun stage => p.conclude stage)

def configure (p : Pipeline) (v : Value) : Except Failure Pipeline :=
  (p.config.apply v).map fun c => { p with config := c }

def standard (printStages printMetrics : Bool) : Pipeline :=
  { stations := [{ pass := .check }, { pass := .generate }]
    config := Config.shipped
    printStages := printStages
    printMetrics := printMetrics }

end Pipeline

/-- Settings of one compilation: a configuration to lay over the shipped one, and what to print. -/
structure Settings where
  config : Option Value := none
  printStages : Bool := false
  printMetrics : Bool := false

def compile (settings : Settings) (f : Function) : Report String :=
  let p := Pipeline.standard settings.printStages settings.printMetrics
  match settings.config with
  | none => (p.run f).2
  | some v =>
    match p.configure v with
    | .ok q => (q.run f).2
    | .error failure => .fail failure

/-- Compiles a function where a refusal is a result; other failures remain failures. -/
def compileFunction (settings : Settings) (f : Function) : Report (Except Diagnostic String) :=
  let report := compile settings f
  match report.outcome with
  | .ok text => ⟨report.transcript, .ok (.ok text)⟩
  | .error (.refused d) =>
    ⟨report.transcript.append ⟨[.note (.refused f.name d)]⟩, .ok (.error d)⟩
  | .error failure => ⟨report.transcript, .error failure⟩

end BlockAsm
