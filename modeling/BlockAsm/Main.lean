import BlockAsm.CommandLine.Run

/-!
The command line: reads the files that the options name, works the run out and carries it out.
-/

namespace BlockAsm.CommandLine

def usageText : String :=
  "usage: [-h] [-o OUTPUT] [--config CONFIG] [--print-after-all] [--print-metrics] [-v] input"

def fileError (e : IO.Error) : FileError :=
  match e with
  | .noFileOrDirectory _ _ _ => .notFound
  | .inappropriateType _ _ _ => .isDirectory
  | .resourceBusy _ _ => .busy
  | e => .system (toString e)

def attempt {α : Type} (action : IO α) : IO (Except FileError α) := do
  try
    let a ← action
    return .ok a
  catch e => return .error (fileError e)

def contents (path : String) : IO Contents := do
  let bytes ← attempt (IO.FS.readBinFile path)
  return bytes.map ByteArray.toList

def createTemporary (directory name : String) : Nat → Nat → IO (Except FileError (String × IO.FS.Handle))
  | 0, _ => return .error (.system "No usable temporary file name found")
  | tries + 1, n => do
    let temporary := directory ++ "/" ++ FileTree.temporaryName name (toString n)
    try
      let handle ← IO.FS.Handle.mk temporary .writeNew
      return .ok (temporary, handle)
    catch
      | .alreadyExists _ _ _ => createTemporary directory name tries (n + 1)
      | e => return .error (fileError e)

def writeHandle (handle : IO.FS.Handle) (text : String) : IO (Except FileError Unit) :=
  match Text.encodeUtf8 text with
  | none => return .error .unencodable
  | some bytes => attempt (do
      handle.write ⟨bytes.toArray⟩
      handle.flush)

def temporaryTries : Nat := 10000

/-- Writes a text beside its target and then gives it the target's name. -/
def replaceFile (path : Path) (text : String) : IO (Except FileError Unit) := do
  match ← createTemporary path.parent.text path.name temporaryTries 0 with
  | .error e => return .error e
  | .ok (temporary, handle) =>
    let written ← writeHandle handle text
    let moved ← match written with
      | .ok () => attempt (IO.FS.rename temporary path.text)
      | .error e => pure (.error e)
    if let .error _ := moved then discard (attempt (IO.FS.removeFile temporary))
    return moved

/-- Prints entries up to the first line that is refused. -/
def tell (o : Options) : List Entry → IO (Except FileError Unit)
  | [] => return .ok ()
  | .line text :: rest => do
    match ← attempt (IO.println text) with
    | .ok () => tell o rest
    | .error e => return .error e
  | .note n :: rest => do
    if o.verbose then discard (attempt (IO.eprintln n.text))
    tell o rest

def abandon (f : Failure) : IO UInt32 := do
  discard (attempt (IO.eprintln (f.message?.getD "the run failed")))
  return 1

def close (e : Ending) : IO UInt32 :=
  match e with
  | .exit status => return status.toUInt32
  | .escaped f => abandon f

def execute (o : Options) : IO UInt32 := do
  let input ← contents (inputPath o)
  let config ← match configPath o with
    | none => pure none
    | some path => do
      let c ← contents path
      pure (some c)
  let job := prepare o input config
  match ← tell o job.transcript.entries with
  | .error e => abandon (.fault (.file e))
  | .ok () =>
    match job.verdict with
    | .ended e =>
      match ← attempt (job.complaint.forM IO.eprintln) with
      | .ok () => close e
      | .error why => abandon (.fault (.file why))
    | .write path text =>
      match ← replaceFile path text with
      | .error e => abandon (.fault (.file e))
      | .ok () =>
        match ← tell o (closingEntries path text) with
        | .ok () => return 0
        | .error e => abandon (.fault (.file e))

end BlockAsm.CommandLine

def main (args : List String) : IO UInt32 := do
  match BlockAsm.CommandLine.parse args with
  | .error .help =>
    IO.println BlockAsm.CommandLine.usageText
    return 0
  | .error .misuse =>
    IO.eprintln BlockAsm.CommandLine.usageText
    return 2
  | .ok o => BlockAsm.CommandLine.execute o
