import BlockAsm.Code.Emission

/-!
The assembly document of a function: its name, a line of header fields, the listing of its blocks,
its constants and its upvalues. Constants keep their places, equal ones too.
-/

namespace BlockAsm.Assembly

/-- The storage written when a function declares no upvalues. -/
def defaultUpvalue : String := "L0 R0"

def leadingFields : List String := ["numparams", "is_vararg", "maxstack"]

def scalarText : Value → String
  | .bool b => if b then "true" else "false"
  | .null => "nil"
  | v => v.plain

def headerField (name : String) (v : Value) : String := name ++ "=" ++ scalarText v

/-- The leading fields in their order, then the others in the order of the header. -/
def headerLine (header : Fields) : String :=
  let leading := leadingFields.filterMap fun k => (Table.get? header k).map (headerField k)
  let others := (header.filter fun f => !leadingFields.contains f.1).map fun f =>
    headerField f.1 f.2
  Value.commaSeparated (leading ++ others)

/-- The header line of a function. A text or a list can be searched for the leading fields but not
asked for them, and has no others. -/
def headerText (header : Value) : Except Failure String :=
  match header with
  | .object fields => .ok (headerLine fields)
  | v =>
    if leadingFields.all fun k => v.finds? k = some false then .error (.fault (.notObject v))
    else .error (.fault (.notSearchable v))

/-- A constant: containers as JSON, numbers bare, everything else between quotes. -/
def constantText : Value → String
  | .list items => (Value.list items).json
  | .object fields => (Value.object fields).json
  | .int n => (Value.int n).plain
  | .float x => (Value.float x).plain
  | v => "\"" ++ Text.escapeConstant (scalarText v) ++ "\""

def constantLine (index : Nat) (v : Value) : String :=
  "K" ++ toString index ++ " = " ++ constantText v

def constantLines (index : Nat) : List Value → List String
  | [] => []
  | v :: rest => constantLine index v :: constantLines (index + 1) rest

def upvalueLine (index : Nat) (d : UpvalueDecl) : String :=
  (if d.name.truthy then d.name.plain else "U" ++ toString index) ++ " = " ++ d.storage.plain

def upvalueLines (index : Nat) : List UpvalueDecl → List String
  | [] => []
  | d :: rest => upvalueLine index d :: upvalueLines (index + 1) rest

def constantSection (pool : Value) : Except Failure (List String) :=
  match pool.members? with
  | some values => .ok (constantLines 0 values)
  | none => .error (.fault (.notEnumerable pool))

def defaultUpvalueLine (storage : Value) : String := "U0 = " ++ storage.plain

/-- One line for each declared upvalue, or the line for none. A value in place of the declarations
counts as none if it is empty; else its members are no declarations. -/
def upvalueSection (upvalues : Upvalues) (storage : Value) : Except Failure (List String) :=
  match upvalues with
  | .declared [] => .ok [defaultUpvalueLine storage]
  | .declared decls => .ok (upvalueLines 0 decls)
  | .other v =>
    if v.truthy then
      match v.members? with
      | some _ => .error (.fault (.upvalueNotDeclared v))
      | none => .error (.fault (.notEnumerable v))
    else .ok [defaultUpvalueLine storage]

/-- The listings of the blocks, each followed by an empty line. -/
def blockSection (c : Context) : List Block → Context × Except Failure (List Line)
  | [] => (c, .ok [])
  | b :: rest =>
    match c.emitBlock b with
    | (d, .error f) => (d, .error f)
    | (d, .ok lines) =>
      match blockSection d rest with
      | (e, .ok more) => (e, .ok (lines ++ .text "" :: more))
      | (e, .error f) => (e, .error f)

/-- The texts of lines; a payload that is no text cannot be joined. -/
def lineTexts : List Line → Except Failure (List String)
  | [] => .ok []
  | line :: rest =>
    match line.value with
    | .str s => (lineTexts rest).map (s :: ·)
    | v => .error (.fault (.payloadNotText v))

def openingLines (f : Function) (header : String) : List String :=
  [".fn @" ++ f.name.plain, ".header", header, ""]

def document (f : Function) (header : String) (listing : List Line) (storage : Value) :
    Except Failure String := do
  let constants ← constantSection f.consts
  let upvalues ← upvalueSection f.upvalues storage
  let body ← lineTexts listing
  .ok (String.intercalate "\n"
    (openingLines f header ++ ".instruction" :: body ++ ".const" :: constants ++ ".upvalue" :: upvalues ++
      [".endfn"]))

def assemble (c : Context) (f : Function) (storage : Value) : Context × Except Failure String :=
  match headerText f.header with
  | .error failure => (c, .error failure)
  | .ok header =>
    match blockSection c f.blocks with
    | (d, .ok listing) => (d, document f header listing storage)
    | (d, .error failure) => (d, .error failure)

end BlockAsm.Assembly
