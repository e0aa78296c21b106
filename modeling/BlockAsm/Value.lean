import BlockAsm.Number.Binary64
import BlockAsm.Table

/-!
Dynamic values: what a document, a configuration or a piece of metadata may hold. Integers are
unbounded and differ from doubles; the fields of an object keep the order in which they were first
written, and writing a field again changes its value in place.
-/

namespace BlockAsm

inductive Value where
  | null
  | bool (b : Bool)
  | int (n : Int)
  | float (x : Binary64)
  | str (s : String)
  | list (items : List Value)
  | object (fields : List (String × Value))
  deriving Repr, Inhabited

abbrev Fields := Table String Value

/-- The value under `key`, where a missing field reads as null. -/
def Fields.read (fields : Fields) (key : String) : Value := (Table.get? fields key).getD .null

namespace Value

/-- What counts as absent or false when a value is used as a condition. -/
def truthy : Value → Bool
  | .null => false
  | .bool b => b
  | .int n => n != 0
  | .float x => !x.isZero
  | .str s => !s.isEmpty
  | .list items => !items.isEmpty
  | .object fields => !fields.isEmpty

def isNull : Value → Bool
  | .null => true
  | _ => false

/-- Lists and objects cannot serve as table keys. -/
def isScalar : Value → Bool
  | .list _ => false
  | .object _ => false
  | _ => true

def typeName : Value → String
  | .null => "NoneType"
  | .bool _ => "bool"
  | .int _ => "int"
  | .float _ => "float"
  | .str _ => "str"
  | .list _ => "list"
  | .object _ => "dict"

def isText (s : String) : Value → Bool
  | .str t => s == t
  | _ => false

def holdsPart (part : List Char) : List Char → Bool
  | [] => part.isEmpty
  | c :: rest => part.isPrefixOf (c :: rest) || holdsPart part rest

/-- Whether a text is found in a value: as a field of an object, a part of a text or a member of a
list. Other values cannot be searched. -/
def finds? (v : Value) (s : String) : Option Bool :=
  match v with
  | .object fields => some (Table.has fields s)
  | .str t => some (holdsPart s.toList t.toList)
  | .list items => some (items.any (isText s))
  | _ => none

/-- What a value yields when it is gone through one by one: the members of a list, the characters of
a text, the keys of an object. -/
def members? : Value → Option (List Value)
  | .list items => some items
  | .str s => some (s.toList.map fun c => .str (String.singleton c))
  | .object fields => some (fields.map fun f => .str f.1)
  | _ => none

/-- The numbers among the scalars are compared by what they count, so that one, the double one and
true are the same key. -/
inductive Key where
  | null
  | int (n : Int)
  | float (x : Binary64)
  | str (s : String)
  deriving DecidableEq, Repr

def key? : Value → Option Key
  | .null => some .null
  | .bool b => some (.int (if b then 1 else 0))
  | .int n => some (.int n)
  | .float x => some (match x.toInt? with | some n => .int n | none => .float x)
  | .str s => some (.str s)
  | .list _ => none
  | .object _ => none

end Value

end BlockAsm
