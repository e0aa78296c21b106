import BlockAsm.Value
import BlockAsm.Number.Layout
import BlockAsm.Text.Quoted

/-!
Values as text. The literal form quotes texts; the plain form gives a text as it stands and every
other value by its literal. The JSON form is the one that constants of the assembly document take.
-/

namespace BlockAsm.Value

def literalWords : FloatWords := ⟨"nan", "inf"⟩

def jsonWords : FloatWords := ⟨"NaN", "Infinity"⟩

def commaSeparated (parts : List String) : String := String.intercalate ", " parts

mutual

def literal : Value → String
  | .null => "None"
  | .bool b => if b then "True" else "False"
  | .int n => toString n
  | .float x => x.text literalWords
  | .str s => Text.literal s
  | .list items => "[" ++ commaSeparated (literalItems items) ++ "]"
  | .object fields => "\x7b" ++ commaSeparated (literalFields fields) ++ "\x7d"

def literalItems : List Value → List String
  | [] => []
  | v :: rest => literal v :: literalItems rest

def literalFields : List (String × Value) → List String
  | [] => []
  | (k, v) :: rest => (Text.literal k ++ ": " ++ literal v) :: literalFields rest

end

def plain : Value → String
  | .str s => s
  | v => literal v

mutual

def json : Value → String
  | .null => "null"
  | .bool b => if b then "true" else "false"
  | .int n => toString n
  | .float x => x.text jsonWords
  | .str s => Text.json s
  | .list items => "[" ++ commaSeparated (jsonItems items) ++ "]"
  | .object fields => "\x7b" ++ commaSeparated (jsonFields fields) ++ "\x7d"

def jsonItems : List Value → List String
  | [] => []
  | v :: rest => json v :: jsonItems rest

def jsonFields : List (String × Value) → List String
  | [] => []
  | (k, v) :: rest => (Text.json k ++ ": " ++ json v) :: jsonFields rest

end

end BlockAsm.Value
