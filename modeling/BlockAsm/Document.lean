import BlockAsm.Failure
import BlockAsm.Number.Integer
import BlockAsm.Text.Line

/-!
Function documents. A document is an object with blocks of instruction objects; an instruction's
operands are gathered from fixed fields in a fixed order, and what is left over is its metadata.

A text operand that reads `K` or `U` and a number refers to the constant pool or to the upvalues; any
other text names a register, a dollar sign in front being dropped. An object operand says its kind.
-/

namespace BlockAsm.Document

/-- The fields that hold operands, in operand order. -/
def operandFields : List String :=
  ["upval", "func", "idx", "src", "lhs", "rhs", "limit", "step", "key", "value"]

def ownFields : List String := operandFields ++ ["op", "dst", "args"]

/-- The non-negative index of an object operand, given as an integer or as the text of one. -/
def operandIndex (operand : Fields) : Except Failure Int :=
  match Table.get? operand "idx" with
  | none => refuse (.indexMissing operand)
  | some idx =>
    let n? := match idx with
      | .int n => some n
      | .str s => Integer.ofText? s
      | _ => none
    match n? with
    | none => refuse (.indexNotInteger idx)
    | some n => if n < 0 then refuse (.indexNegative n) else .ok n

/-- The digits of a pool reference after its letter; a final line feed is let pass. -/
def poolDigits? (cs : List Char) : Option (List Char) :=
  let digits := cs.takeWhile Text.isDigit
  let rest := cs.dropWhile Text.isDigit
  if digits.isEmpty then none else if rest = [] ∨ rest = ['\n'] then some digits else none

def poolIndex (digits : List Char) : Except Failure Value :=
  if digits.length ≤ Integer.maxDigits then .ok (.int (Text.digitsValue digits))
  else .error (.fault .tooManyDigits)

def registerNamed (cs : List Char) : Operand :=
  match cs with
  | '$' :: rest => .register (.str (String.ofList rest))
  | cs => .register (.str (String.ofList cs))

def textOperand (s : String) : Except Failure Operand :=
  match s.toList with
  | 'K' :: rest =>
    match poolDigits? rest with
    | some digits => (poolIndex digits).map .constant
    | none => .ok (.register (.str s))
  | 'U' :: rest =>
    match poolDigits? rest with
    | some digits => (poolIndex digits).map .upvalue
    | none => .ok (.register (.str s))
  | cs => .ok (registerNamed cs)

def objectOperand (operand : Fields) : Except Failure Operand :=
  match Fields.read operand "kind" with
  | .str "reg" =>
    match Fields.read operand "name" with
    | .null => (operandIndex operand).map fun n => .register (.str ("R" ++ toString n))
    | name => .ok (.register name)
  | .str "const" => (operandIndex operand).map fun n => .constant (.int n)
  | .str "up" => (operandIndex operand).map fun n => .upvalue (.int n)
  | kind => refuse (.operandKindUnknown kind)

def operand : Value → Except Failure Operand
  | .object fields => objectOperand fields
  | .str s => textOperand s
  | v => refuse (.operandUnknown v)

/-- Integers, true and false among them, serve as keys by themselves. -/
def isIntegral : Value → Bool
  | .int _ => true
  | .bool _ => true
  | _ => false

def keepsKey (tag : Value) : Except Failure Bool :=
  match tag with
  | .str s => .ok (s == "getfield_env" || s == "gettabup")
  | tag => if tag.isScalar then .ok false else .error (.fault (.tagNotScalar tag))

/-- What one operand field contributes: an operand, or the key as metadata. -/
def fieldOperand (tag : Value) (name : String) (v : Value) : Except Failure (Operand ⊕ Value) :=
  if name == "key" && isIntegral v then
    (keepsKey tag).map fun kept => if kept then .inr v else .inl (.constant v)
  else (operand v).map .inl

def fieldOperands (tag : Value) (fields : Fields) :
    List String → Except Failure (List Operand × Fields)
  | [] => .ok ([], [])
  | name :: names =>
    match Table.get? fields name with
    | none => fieldOperands tag fields names
    | some v => do
      let found ← fieldOperand tag name v
      let (operands, kept) ← fieldOperands tag fields names
      match found with
      | .inl o => .ok (o :: operands, kept)
      | .inr key => .ok (operands, Table.set kept "key" key)

def listField (fields : Fields) (name : String) : Except Failure (List Value) :=
  match Fields.read fields name with
  | .null => .ok []
  | .list items => .ok items
  | v => refuse (.notAList name v)

def operands : List Value → Except Failure (List Operand)
  | [] => .ok []
  | v :: rest => do
    let o ← operand v
    let os ← operands rest
    .ok (o :: os)

def destination (fields : Fields) : Except Failure (Option Operand) :=
  match Fields.read fields "dst" with
  | .null => .ok none
  | v => (operand v).map some

def instruction (v : Value) : Except Failure Instruction :=
  match v with
  | .object fields =>
    match Table.get? fields "op" with
    | none => refuse (.notAnInstruction v)
    | some tag => do
      let dest ← destination fields
      let (named, kept) ← fieldOperands tag fields operandFields
      let listed ← listField fields "args"
      let more ← operands listed
      let others := fields.filter fun f => !ownFields.contains f.1
      .ok { tag := tag, dest := dest, args := named ++ more, metadata := .object (kept ++ others) }
  | v => refuse (.notAnInstruction v)

def instructions : List Value → Except Failure (List Item)
  | [] => .ok []
  | v :: rest => do
    let i ← instruction v
    let is ← instructions rest
    .ok (.instruction i :: is)

def block (v : Value) : Except Failure Block :=
  match v with
  | .object fields =>
    let label := Fields.read fields "name"
    if label.truthy then do
      let listed ← listField fields "instrs"
      let items ← instructions listed
      .ok { label := label, items := items }
    else refuse (.notABlock v)
  | v => refuse (.notABlock v)

def blocks : List Value → Except Failure (List Block)
  | [] => .ok []
  | v :: rest => do
    let b ← block v
    let bs ← blocks rest
    .ok (b :: bs)

/-- The first of two values that counts, or else the empty text. -/
def firstTruthy (v w : Value) : Value :=
  if v.truthy then v else if w.truthy then w else .str ""

def upvalue (index : Nat) : Value → Except Failure UpvalueDecl
  | .str s => .ok { storage := .str s }
  | .object fields =>
    .ok { storage := firstTruthy (Fields.read fields "info") (Fields.read fields "ref"),
          name := Fields.read fields "name" }
  | _ => refuse (.notAnUpvalue index)

def upvalues (index : Nat) : List Value → Except Failure (List UpvalueDecl)
  | [] => .ok []
  | v :: rest => do
    let d ← upvalue index v
    let ds ← upvalues (index + 1) rest
    .ok (d :: ds)

def header (fields : Fields) : Except Failure Fields :=
  let v := Fields.read fields "header"
  if v.truthy then
    match v with
    | .object header => .ok header
    | v => refuse (.notAHeader v)
  else .ok []

def function (v : Value) : Except Failure Function :=
  match v with
  | .object fields => do
    let listed ← listField fields "blocks"
    let blocks ← blocks listed
    let header ← header fields
    let declared ← listField fields "upvalues"
    let upvalues ← upvalues 0 declared
    let consts ← listField fields "consts"
    let locals ← listField fields "locals"
    let name := Fields.read fields "function"
    .ok { name := if name.truthy then name else .str "anonymous"
          header := .object header
          blocks := blocks
          consts := .list consts
          upvalues := .declared upvalues
          locals := .list locals }
  | _ => refuse .notADocument

def load (path : String) (bytes : List UInt8) : Except Failure Function :=
  match Text.decodeUtf8 bytes with
  | .error e => refuse (.invalidUtf8 path e)
  | .ok text =>
    match Json.parse (Text.unifyBreaks text) with
    | .error (.malformed m) => refuse (.invalidJson path m)
    | .error .tooManyDigits => .error (.fault .tooManyDigits)
    | .error .reserved => .error (.fault .characterReserved)
    | .ok v => function v

end BlockAsm.Document
