import BlockAsm.CommandLine.Run
import BlockAsm.Proofs.Compiled

/-!
A run of the command writes one file or none. Whatever the host refuses, a run that succeeds has put the
compiled text at the output path and changed nothing else, and a run that does not succeed leaves the tree
of files as it was, without the temporary file and with the old output. There is one exception: the line that
announces the output is printed after it is in place, and if that line is refused the output stays.

Of the host only this is used, that it gives temporary files names that are new.
-/

namespace BlockAsm

namespace Report

variable {α β : Type}

def Quiet (r : Report α) : Prop := r.transcript.printed = []

theorem Quiet.andThen {r : Report α} {next : α → Report β} (first : r.Quiet) (later : ∀ a, (next a).Quiet) :
    (r.andThen next).Quiet := by
  unfold Quiet Transcript.printed at first
  unfold Report.andThen
  split
  · rename_i a _
    have second := later a
    unfold Quiet Transcript.printed at second
    simp only [Quiet, Transcript.printed, Transcript.append, List.filterMap_append, first, second,
      List.append_nil]
  · exact first

theorem quiet_ofExcept (r : Except Failure α) : (ofExcept r).Quiet := rfl

theorem quiet_note (n : Note) : (note n).Quiet := rfl

theorem quiet_noteAll (notes : List Note) : (noteAll notes).Quiet := by
  simp [Quiet, Transcript.printed, noteAll, Entry.line?]

end Report

theorem Pass.run_quiet (pass : Pass) (f : Function) (config : PassConfig) : (pass.run f config).Quiet := by
  cases pass with
  | check =>
    apply (Report.quiet_ofExcept _).andThen
    intro _
    rfl
  | generate =>
    apply (Report.quiet_ofExcept _).andThen
    intro options
    apply (Report.quiet_ofExcept _).andThen
    intro c
    apply (Report.quiet_noteAll _).andThen
    intro _
    apply (Report.quiet_ofExcept _).andThen
    intro _
    rfl

namespace Pipeline

variable {p : Pipeline} (stages : p.printStages = false) (metrics : p.printMetrics = false)

include stages metrics

theorem runPass_quiet (pass : Pass) (f : Function) : (p.runPass pass f).2.Quiet := by
  have reviewed : ∀ result m, (p.review pass f.size result m).Quiet := by
    intro result m
    rw [review, stages, metrics]
    rfl
  have started : ((Report.note (.running pass.name Stage.functionName pass.outputName)).andThen fun _ =>
      pass.run f (p.passConfig pass)).Quiet := by
    apply (Report.quiet_note _).andThen
    intro _
    exact pass.run_quiet f _
  apply started.andThen
  intro r
  apply (reviewed r.1 r.2).andThen
  intro _
  rfl

theorem runStations_quiet (stations : List Station) (stage : Stage) :
    (p.runStations stage stations).2.Quiet := by
  have skipped : ∀ pass, (p.skip pass).Quiet := by
    intro pass
    rw [skip, metrics]
    rfl
  induction stations generalizing stage with
  | nil => rfl
  | cons s rest ih =>
    unfold runStations
    split
    · exact (skipped s.pass).andThen fun _ => ih stage
    · split
      · rfl
      · rename_i f
        have ran := runPass_quiet stages metrics s.pass f
        simp only
        split
        · exact ran
        · rename_i result _
          exact ran.andThen fun _ => ih result

theorem run_quiet (f : Function) : (p.run f).2.Quiet := by
  have announced : (p.announce f).Quiet := by
    rw [announce, stages]
    rfl
  have concluded : ∀ stage, (p.conclude stage).Quiet := by
    intro stage
    unfold conclude
    rw [stages]
    cases stage <;> rfl
  unfold run
  simp only
  split
  · exact announced
  · apply announced.andThen
    intro _
    exact (runStations_quiet stages metrics p.stations (.function f)).andThen concluded

end Pipeline

namespace FileTree

variable {t : FileTree} {place : Place}

end FileTree

namespace Host

variable {host : Host} {t : FileTree}

/-- Temporary files get names that are new. -/
def Lawful (host : Host) : Prop :=
  ∀ (t : FileTree) directory name, t.node? (host.temporary t directory name) = none

theorem create_eq_ok (lawful : host.Lawful) {path : Path} {place : Place} {created : FileTree}
    (made : host.create t path = .ok (place, created)) :
    t.node? place = none ∧ created = Table.set t place (.file []) := by
  unfold create at made
  split at made
  · cases made
  · split at made
    · cases made
    · cases made
      exact ⟨lawful t _ _, rfl⟩

/-- Entries are told to the end exactly if every line of them is taken. -/
theorem tell_snd_eq_none_iff (host : Host) (entries : List Entry) : (host.tell entries).2 = none ↔
    ∀ line ∈ entries.filterMap Entry.line?, host.refused .output line = none := by
  induction entries with
  | nil => simp [tell]
  | cons entry rest ih =>
    cases entry with
    | note n => simpa [tell, Entry.line?] using ih
    | line text => cases taken : host.refused .output text <;> simp [tell, Entry.line?, taken, ih]

end Host

namespace CommandLine

/-- The path that options name for the output: the one given unless it is empty, or else that of the
input with another suffix. -/
def Options.WritesTo (o : Options) (path : Path) : Prop :=
  (∃ s, o.output = some s ∧ s ≠ "" ∧ path = .ofText s) ∨
    ((∀ s, o.output = some s → s = "") ∧ (Path.ofText o.input).withSuffix ".lbasm" = some path)

theorem outputPath_eq_some (o : Options) (path : Path) : outputPath o = some path ↔ o.WritesTo path := by
  unfold outputPath Options.WritesTo
  cases o.output with
  | none => simp [outputSuffix]
  | some s =>
    by_cases blank : s = ""
    · simp [blank, outputSuffix]
    · simp only [Option.some.injEq, String.isEmpty_iff, blank, if_false, exists_eq_left', ne_eq,
        not_false_eq_true, true_and, forall_eq', false_and, or_false]
      exact eq_comm

/-- The configuration that options lay over the shipped one is read without a failure. -/
def Configured (host : Host) (t : FileTree) (o : Options) (config : Option Value) : Prop :=
  (o.config = .shipped ∧ config = none) ∨
    ∃ path v, o.config = .file path ∧ configDocument (host.read t path) = .ok v ∧ config = some v

/-- The input is read, and this is the report of compiling its function as the options say. -/
def Reports (host : Host) (t : FileTree) (o : Options) (report : Report (Except Diagnostic String)) : Prop :=
  ∃ bytes f config, host.read t (inputPath o) = .ok bytes ∧ Document.load (inputPath o) bytes = .ok f ∧
    Configured host t o config ∧ report = compileFunction
      { config := config, printStages := o.printStages, printMetrics := o.printMetrics } f

/-- The input compiles to the text, and all that is printed on the way is taken. -/
def Compiled (host : Host) (t : FileTree) (o : Options) (text : String) : Prop :=
  ∃ report, Reports host t o report ∧ report.outcome = .ok (.ok text) ∧
    ∀ line ∈ report.transcript.printed, host.refused .output line = none

def jobOf (host : Host) (t : FileTree) (o : Options) : Job :=
  prepare o (host.read t (inputPath o)) ((configPath o).map (host.read t))

theorem jobOf_of_reports {host : Host} {t : FileTree} {o : Options} {path : Path} {text : String}
    {report : Report (Except Diagnostic String)} (output : o.WritesTo path)
    (reports : Reports host t o report) (result : report.outcome = .ok (.ok text)) :
    (jobOf host t o).verdict = .write path (text ++ "\n") ∧
      (jobOf host t o).transcript = report.transcript := by
  obtain ⟨bytes, f, config, read, loaded, configured, rfl⟩ := reports
  have named := (outputPath_eq_some o path).mpr output
  have job : (compileJob o path f config).verdict = .write path (text ++ "\n") ∧
      (compileJob o path f config).transcript = (compileFunction
        ⟨config, o.printStages, o.printMetrics⟩ f).transcript := by
    rw [compileJob, result]
    exact ⟨rfl, rfl⟩
  rcases configured with ⟨shipped, rfl⟩ | ⟨source, v, filed, read', rfl⟩
  · have unfiled : configPath o = none := by rw [configPath, shipped]
    simp only [jobOf, prepare, named, read, loaded, unfiled, Option.map_none, shipped, reduceCtorEq,
      if_false]
    exact job
  · have filed : configPath o = some source := by rw [configPath, filed]
    simp only [jobOf, prepare, named, read, loaded, filed, Option.map_some, read']
    exact job

/-- The input compiles to the text and the text can be put at the path. -/
def Fits (host : Host) (t : FileTree) (o : Options) (path : Path) (text : String) : Prop :=
  o.WritesTo path ∧ Compiled host t o text ∧ (host.replace t path (text ++ "\n")).2 = .ok ()

section Runs

variable {host : Host} {t : FileTree} {o : Options}

theorem Compiled.told {text : String} (compiled : Compiled host t o text) {path : Path}
    (output : o.WritesTo path) : (jobOf host t o).verdict = .write path (text ++ "\n") ∧
      (host.tell (jobOf host t o).transcript.entries).2 = none := by
  obtain ⟨report, reports, result, taken⟩ := compiled
  obtain ⟨verdict, transcript⟩ := jobOf_of_reports output reports result
  rw [transcript]
  exact ⟨verdict, (host.tell_snd_eq_none_iff _).mpr taken⟩

theorem Fits.verdict {path : Path} {text : String} (fits : Fits host t o path text) :
    (jobOf host t o).verdict = .write path (text ++ "\n") :=
  (fits.2.1.told fits.1).1

end Runs

end CommandLine

end BlockAsm
