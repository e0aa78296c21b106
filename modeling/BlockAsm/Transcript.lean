import BlockAsm.Allocator.Loop

/-!
What a run leaves beside its result: the lines it printed and the notes it took for a reader who asks
for details, in their order. A report is a result that comes with its transcript; what was printed before
a failure stays printed.
-/

namespace BlockAsm

inductive Note where
  | takeover (t : Takeover)
  | skipped (pass : String)
  | running (pass input output : String)
  | refused (function : Value) (d : Diagnostic)
  | wrote (count : Nat) (path : String)
  deriving Repr

def Note.text : Note → String
  | .takeover t =>
    "DEBUG lbasm.loop_groups: loop '" ++ t.stem ++ "' takes R" ++ toString t.slot ++ " from '" ++
      t.name ++ "'"
  | .skipped pass => "DEBUG lbasm.pass_manager: Skipping disabled pass " ++ pass
  | .running pass input output =>
    "DEBUG lbasm.pass_manager: Running pass " ++ pass ++ " (" ++ input ++ " -> " ++ output ++ ")"
  | .refused function d =>
    "DEBUG lbasm.compile: Lowering of '" ++ function.plain ++ "' failed: " ++ d.message
  | .wrote count path =>
    "DEBUG lbasm.cli: wrote " ++ toString count ++ " bytes to " ++ path

/-- A line for everyone, or a note. -/
inductive Entry where
  | line (text : String)
  | note (n : Note)
  deriving Repr

namespace Entry

def line? : Entry → Option String
  | .line text => some text
  | .note _ => none

def note? : Entry → Option Note
  | .line _ => none
  | .note n => some n

end Entry

structure Transcript where
  entries : List Entry := []
  deriving Repr

namespace Transcript

def append (s t : Transcript) : Transcript := ⟨s.entries ++ t.entries⟩

def printed (t : Transcript) : List String := t.entries.filterMap Entry.line?

def notes (t : Transcript) : List Note := t.entries.filterMap Entry.note?

def text (t : Transcript) : String := String.join (t.printed.map (· ++ "\n"))

end Transcript

structure Report (α : Type) where
  transcript : Transcript := {}
  outcome : Except Failure α

namespace Report

variable {α β : Type}

def done (a : α) : Report α := { outcome := .ok a }

def fail (f : Failure) : Report α := { outcome := .error f }

def print (line : String) : Report Unit := { transcript := ⟨[.line line]⟩, outcome := .ok () }

def note (n : Note) : Report Unit := { transcript := ⟨[.note n]⟩, outcome := .ok () }

def ofExcept (r : Except Failure α) : Report α := { outcome := r }

def andThen (r : Report α) (next : α → Report β) : Report β :=
  match r.outcome with
  | .ok a => ⟨r.transcript.append (next a).transcript, (next a).outcome⟩
  | .error f => ⟨r.transcript, .error f⟩

instance : Monad Report where
  pure := done
  bind := andThen

def printAll : List String → Report Unit
  | [] => done ()
  | line :: rest => (print line).andThen fun _ => printAll rest

def noteAll (notes : List Note) : Report Unit :=
  { transcript := ⟨notes.map .note⟩, outcome := .ok () }

end Report

end BlockAsm
