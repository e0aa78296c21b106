import BlockAsm.Transcript
import BlockAsm.Text.Line

/-!
Listings for a reader: a function with its blocks and instructions, and an assembly text with its
lines numbered.
-/

namespace BlockAsm.Listing

def texts : List Value → Except Failure (List String)
  | [] => .ok []
  | .str s :: rest => (texts rest).map (s :: ·)
  | v :: _ => .error (.fault (.nameNotText v))

def localTexts (locals : Value) : Except Failure (List String) :=
  match locals.members? with
  | some names => texts names
  | none => .error (.fault (.notEnumerable locals))

def poolSize (pool : Value) : Except Failure Nat :=
  match pool.members? with
  | some values => .ok values.length
  | none => .error (.fault (.notEnumerable pool))

def instructionLine (i : Instruction) : String :=
  "  " ++ i.text ++ (if i.metadata.truthy then "  " ++ i.metadata.plain else "")

def printItems : List Item → Report Unit
  | [] => .done ()
  | .instruction i :: rest => do
    Report.print (instructionLine i)
    printItems rest
  | .other v :: _ => .fail (.fault (.itemNotInstruction v))

def printBlocks : List Block → Report Unit
  | [] => .done ()
  | b :: rest => do
    Report.print ("\n" ++ b.label.plain ++ ":")
    printItems b.items
    printBlocks rest

def printFunction (f : Function) : Report Unit := do
  let constants ← Report.ofExcept (poolSize f.consts)
  Report.print ("=== LIR: " ++ f.name.plain ++ " (" ++ toString f.blocks.length ++ " blocks, " ++
    toString constants ++ " consts) ===")
  if f.header.truthy then
    Report.print ("header: " ++ f.header.plain)
  if f.locals.truthy then
    let names ← Report.ofExcept (localTexts f.locals)
    Report.print ("locals: " ++ Value.commaSeparated names)
  printBlocks f.blocks
  Report.print ""

def padded (n : Nat) : String :=
  let digits := toString n
  String.ofList (List.replicate (4 - digits.length) ' ') ++ digits

def numberedLines (n : Nat) : List String → List String
  | [] => []
  | line :: rest => ("[" ++ padded n ++ "] " ++ line) :: numberedLines (n + 1) rest

def printAssembly (text : String) : Report Unit := do
  let lines := Text.lines text
  Report.print ("=== LBASM (" ++ toString lines.length ++ " lines) ===")
  Report.printAll (numberedLines 0 lines)
  Report.print ""

end BlockAsm.Listing
