import BlockAsm.IR.Function
import BlockAsm.Value.Reader
import BlockAsm.Text.Utf8

/-!
What can go wrong. A complaint says why a document or an instruction is refused and has a message of
its own; a diagnostic places a complaint in a block and at an instruction. A fault is a use of a
value that the value does not admit, or a failure outside the lowering, and has no message.
-/

namespace BlockAsm

inductive ComplaintKind where
  | lowering
  | malformedInput
  | unknownOperandKind
  | unknownOpcode
  | missingMetadata
  | arity
  deriving DecidableEq, Repr

inductive Complaint where
  | notADocument
  | notAList (field : String) (found : Value)
  | notAHeader (found : Value)
  | notABlock (found : Value)
  | notAnInstruction (found : Value)
  | notAnUpvalue (index : Nat)
  | invalidJson (path : String) (error : Json.Malformed)
  | invalidUtf8 (path : String) (error : Text.Utf8Error)
  | indexMissing (operand : Fields)
  | indexNotInteger (found : Value)
  | indexNegative (n : Int)
  | operandKindUnknown (kind : Value)
  | operandUnknown (found : Value)
  | noBlocks (function : Value)
  | poolNotAList
  | upvaluesNotAList
  | blockUnlabelled
  | labelRepeated (label : Value)
  | itemNotAnInstruction (found : Value)
  | tagMissing (i : Instruction)
  | metadataNotAnObject (i : Instruction)
  | unresolvable (o : Operand)
  | opcodeUnknown (tag : Value)
  | destinationMissing (tag : Value)
  | operandMissing (tag : Value) (role : String)
  | targetMissing (tag : Value)
  | bodyMissing (tag : Value)
  | loopIndexNotARegister (o : Operand)
  /-- A complaint known only by its class and words. -/
  | stated (kind : ComplaintKind) (message : String)
  deriving Repr, Inhabited

namespace Complaint

def kind : Complaint → ComplaintKind
  | .operandKindUnknown _ => .unknownOperandKind
  | .operandUnknown _ => .unknownOperandKind
  | .unresolvable _ => .unknownOperandKind
  | .opcodeUnknown _ => .unknownOpcode
  | .destinationMissing _ => .arity
  | .operandMissing _ _ => .arity
  | .targetMissing _ => .missingMetadata
  | .bodyMissing _ => .missingMetadata
  | .stated kind _ => kind
  | _ => .malformedInput

def byteText (n : Nat) : String := "0x" ++ String.ofList (Text.hex n 2)

def utf8Message (e : Text.Utf8Error) : String :=
  let place :=
    if e.count == 1 then "byte " ++ byteText e.first ++ " in position " ++ toString e.start
    else "bytes in position " ++ toString e.start ++ "-" ++ toString (e.start + e.count - 1)
  let reason := match e.reason with
    | .invalidStart => "invalid start byte"
    | .invalidContinuation => "invalid continuation byte"
    | .unexpectedEnd => "unexpected end of data"
  "'utf-8' codec can't decode " ++ place ++ ": " ++ reason

def message : Complaint → String
  | .notADocument => "LIR document must be a JSON object"
  | .notAList field found => "'" ++ field ++ "' must be a list, got " ++ found.typeName
  | .notAHeader found => "'header' must be an object, got " ++ found.typeName
  | .notABlock found => "block must be an object with a 'name': " ++ found.literal
  | .notAnInstruction found => "instruction must be an object with an 'op': " ++ found.literal
  | .notAnUpvalue index => "upvalue " ++ toString index ++ " must be a string or an object"
  | .invalidJson path error => path ++ ": invalid JSON: " ++ error.message
  | .invalidUtf8 path error => path ++ ": not valid UTF-8: " ++ utf8Message error
  | .indexMissing operand =>
    (Fields.read operand "kind").plain ++ " operand needs an 'idx': " ++ (Value.object operand).literal
  | .indexNotInteger found => "operand index must be an integer: " ++ found.literal
  | .indexNegative n => "operand index must be non-negative: " ++ toString n
  | .operandKindUnknown kind => "unknown operand kind: " ++ kind.literal
  | .operandUnknown found => "unknown operand: " ++ found.literal
  | .noBlocks function => "function '" ++ function.plain ++ "' has no blocks"
  | .poolNotAList => "constant pool must be a list"
  | .upvaluesNotAList => "upvalue list must be a list"
  | .blockUnlabelled => "block without a label"
  | .labelRepeated label => "duplicate block label '" ++ label.plain ++ "'"
  | .itemNotAnInstruction found => "not an instruction: " ++ found.literal
  | .tagMissing i => "instruction without an opcode tag: " ++ i.text
  | .metadataNotAnObject i => "instruction metadata must be a dict: " ++ i.text
  | .unresolvable o => "Unknown operand kind: " ++ o.text
  | .opcodeUnknown tag => "Unknown opcode: " ++ tag.literal
  | .destinationMissing tag => "'" ++ tag.plain ++ "' requires a destination"
  | .operandMissing tag role => "'" ++ tag.plain ++ "' is missing its " ++ role ++ " operand"
  | .targetMissing tag => "'" ++ tag.plain ++ "' requires a branch target"
  | .bodyMissing tag => "'" ++ tag.plain ++ "' requires a body label"
  | .loopIndexNotARegister o => "for_prep index must be a register, got " ++ o.text
  | .stated _ message => message

end Complaint

/-- A complaint with the block and the instruction it arose at, where they are known. -/
structure Diagnostic where
  complaint : Complaint
  block : Option Value := none
  instruction : Option Value := none
  deriving Repr, Inhabited

namespace Diagnostic

def kind (d : Diagnostic) : ComplaintKind := d.complaint.kind

def message (d : Diagnostic) : String :=
  let place := match d.block with
    | some label => " in block '" ++ label.plain ++ "'"
    | none => ""
  let culprit := match d.instruction with
    | some i => " at " ++ i.plain
    | none => ""
  d.complaint.message ++ place ++ culprit

/-- A label as a place; null names none. -/
def placeOf (label : Value) : Option Value := if label.isNull then none else some label

/-- Places a complaint unless it has a block already. -/
def annotate (d : Diagnostic) (label : Value) (instruction : Option Value) : Diagnostic :=
  if d.block.isSome then d else { d with block := placeOf label, instruction := instruction }

end Diagnostic

inductive FileError where
  | notFound
  | isDirectory
  | notDirectory
  | busy
  | nameTooLong
  /-- A null character, which no path can hold. -/
  | nullCharacter
  | unencodable
  | system (message : String)
  deriving DecidableEq, Repr

def FileError.message : FileError → String
  | .notFound => "No such file or directory"
  | .isDirectory => "Is a directory"
  | .notDirectory => "Not a directory"
  | .busy => "Device or resource busy"
  | .nameTooLong => "File name too long"
  | .nullCharacter => "Null character in a path"
  | .unencodable => "Surrogates not allowed"
  | .system message => message

/-- Uses that a value does not admit, and failures outside the lowering. -/
inductive Fault where
  | nameNotScalar (name : Value)
  | nameNotText (name : Value)
  | tagNotScalar (tag : Value)
  | labelNotScalar (label : Value)
  | payloadNotText (payload : Value)
  | suffixNotText (suffix : Value)
  | suffixInvalid (suffix : String)
  | suffixTooLarge (suffix : String)
  /-- A suffix beyond the patterns that are described here. -/
  | suffixUnread (suffix : String)
  | notEnumerable (v : Value)
  | notSearchable (v : Value)
  | notObject (v : Value)
  | itemNotInstruction (v : Value)
  | upvalueNotDeclared (v : Value)
  | configUnnamed
  | tooManyDigits
  /-- A text beyond those that are described here. -/
  | characterReserved
  | noFileName
  | configMalformed (error : Json.Malformed)
  | configEncoding (error : Text.Utf8Error)
  | file (error : FileError)
  deriving Repr, Inhabited

inductive Failure where
  | refused (d : Diagnostic)
  | fault (f : Fault)
  | passMismatch (pass expected found : String)
  | unfinished (found : String)
  deriving Repr, Inhabited

namespace Failure

def ofComplaint (c : Complaint) : Failure := .refused { complaint := c }

def message? : Failure → Option String
  | .refused d => some d.message
  | .fault _ => none
  | .passMismatch pass expected found =>
    some ("Pass '" ++ pass ++ "' expects input type '" ++ expected ++ "' but current state is '" ++
      found ++ "'")
  | .unfinished found =>
    some ("Pipeline did not produce LBASM output, got '" ++ found ++ "' instead")

def annotate (f : Failure) (label : Value) (instruction : Option Value) : Failure :=
  match f with
  | .refused d => .refused (d.annotate label instruction)
  | f => f

end Failure

/-- Refuses something for a reason; where it arose is not known yet. -/
def refuse {α : Type} (c : Complaint) : Except Failure α := .error (.ofComplaint c)

end BlockAsm
