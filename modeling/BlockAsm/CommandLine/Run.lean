import BlockAsm.CommandLine.Options
import BlockAsm.CommandLine.Host
import BlockAsm.Document
import BlockAsm.Pipeline

/-!
A run of the command. What is to be done is worked out from the options and the contents of the input
and configuration files; the only effect on files is one replacement, after which only the line that
announces it is printed. A line that is refused ends the run at once.
-/

namespace BlockAsm.CommandLine

inductive Ending where
  | exit (status : Nat)
  | escaped (f : Failure)

/-- What a run has come to before it touches the output: an end, or a text to write. -/
inductive Verdict where
  | ended (e : Ending)
  | write (path : Path) (text : String)

structure Job where
  transcript : Transcript := {}
  /-- The error line, if there is one. -/
  complaint : List String := []
  verdict : Verdict

def outputSuffix : String := ".lbasm"

/-- The output path: the one given unless it is empty, or else the input with another suffix. -/
def outputPath (o : Options) : Option Path :=
  match o.output with
  | some s => if s.isEmpty then (Path.ofText o.input).withSuffix outputSuffix else some (Path.ofText s)
  | none => (Path.ofText o.input).withSuffix outputSuffix

def inputPath (o : Options) : String := (Path.ofText o.input).text

abbrev Contents := Except FileError (List UInt8)

def configDocument (contents : Contents) : Except Failure Value :=
  match contents with
  | .error e => .error (.fault (.file e))
  | .ok bytes =>
    match Text.decodeUtf8 bytes with
    | .error e => .error (.fault (.configEncoding e))
    | .ok text =>
      match Json.parse (Text.unifyBreaks text) with
      | .error (.malformed m) => .error (.fault (.configMalformed m))
      | .error .tooManyDigits => .error (.fault .tooManyDigits)
      | .error .reserved => .error (.fault .characterReserved)
      | .ok v => .ok v

def refusal (t : Transcript) (d : Diagnostic) : Job :=
  { transcript := t, complaint := ["error: " ++ d.message], verdict := .ended (.exit 1) }

def escape (t : Transcript) (f : Failure) : Job := { transcript := t, verdict := .ended (.escaped f) }

def compileJob (o : Options) (output : Path) (f : Function) (config : Option Value) : Job :=
  let report := compileFunction
    { config := config, printStages := o.printStages, printMetrics := o.printMetrics } f
  match report.outcome with
  | .error failure => escape report.transcript failure
  | .ok (.error d) => refusal report.transcript d
  | .ok (.ok text) => { transcript := report.transcript, verdict := .write output (text ++ "\n") }

def configPath (o : Options) : Option String :=
  match o.config with
  | .file path => some path
  | _ => none

/-- Works out a run from the contents of the input and of the configuration, if it has a path. -/
def prepare (o : Options) (input : Contents) (config : Option Contents) : Job :=
  match outputPath o with
  | none => escape {} (.fault .noFileName)
  | some output =>
    match input with
    | .error .nullCharacter => escape {} (.fault (.file .nullCharacter))
    | .error .unencodable => escape {} (.fault (.file .unencodable))
    | .error e =>
      { complaint := ["error: cannot open " ++ inputPath o ++ ": " ++ e.message]
        verdict := .ended (.exit 1) }
    | .ok bytes =>
      match Document.load (inputPath o) bytes with
      | .error (.refused d) => refusal {} d
      | .error failure => escape {} failure
      | .ok f =>
        match config with
        | none =>
          if o.config = .unnamed then escape {} (.fault .configUnnamed) else compileJob o output f none
        | some contents =>
          match configDocument contents with
          | .error failure => escape {} failure
          | .ok v => compileJob o output f (some v)

structure Finished where
  ending : Ending
  transcript : Transcript
  complaint : List String

def escaping (transcript : Transcript) (e : FileError) : Finished :=
  ⟨.escaped (.fault (.file e)), transcript, []⟩

def complain (host : Host) (job : Job) (e : Ending) : Finished :=
  match job.complaint.findSome? (host.refused .errors) with
  | some why => escaping job.transcript why
  | none => ⟨e, job.transcript, job.complaint⟩

def closingLine (path : Path) : String := "wrote " ++ path.text

def closingEntries (path : Path) (text : String) : List Entry :=
  [.note (.wrote text.length path.text), .line (closingLine path)]

/-- Ends a run whose text was written, or could not be. -/
def conclude (host : Host) (job : Job) (path : Path) (text : String) (written : Except FileError Unit) :
    Finished :=
  match written with
  | .error e => escaping job.transcript e
  | .ok () =>
    match host.tell (closingEntries path text) with
    | (told, some e) => escaping (job.transcript.append ⟨told⟩) e
    | (told, none) => ⟨.exit 0, job.transcript.append ⟨told⟩, []⟩

def outputText (f : Finished) : String := f.transcript.text

def errorText (verbose : Bool) (f : Finished) : String :=
  String.join (((if verbose then f.transcript.notes.map Note.text else []) ++ f.complaint).map
    (· ++ "\n"))

def finish (host : Host) (t : FileTree) (job : Job) : FileTree × Finished :=
  match host.tell job.transcript.entries with
  | (told, some e) => (t, escaping ⟨told⟩ e)
  | (_, none) =>
    match job.verdict with
    | .ended e => (t, complain host job e)
    | .write path text =>
      let (after, written) := host.replace t path text
      (after, conclude host job path text written)

/-- Runs the command on a tree of files that a host holds. -/
def runOn (host : Host) (t : FileTree) (o : Options) : FileTree × Finished :=
  finish host t (prepare o (host.read t (inputPath o)) ((configPath o).map (host.read t)))

/-- Runs the command on a tree of files whose host refuses nothing. -/
def run (t : FileTree) (o : Options) : FileTree × Finished := runOn {} t o

end BlockAsm.CommandLine
