import BlockAsm.Value

/-!
Names of registers and stems. A name is any scalar, and two names are the same when their keys are, so
that the number one and true are one name. Only a text has a stem.
-/

namespace BlockAsm

structure Name where
  value : Value
  key : Value.Key
  key?_value : value.key? = some key

instance : Keyed Name Value.Key := ⟨Name.key⟩

namespace Name

def ofText (s : String) : Name := ⟨.str s, .str s, rfl⟩

/-- The name that a value is; a list or an object is none. -/
def of? (v : Value) : Option Name :=
  match h : v.key? with
  | some k => some ⟨v, k, h⟩
  | none => none

def text? (n : Name) : Option String :=
  match n.value with
  | .str s => some s
  | _ => none

def among (n : Name) (names : List Name) : Bool := names.any fun m => decide (m.key = n.key)

@[simp] theorem text?_ofText (s : String) : (ofText s).text? = some s := rfl

@[simp] theorem key_ofText (s : String) : (ofText s).key = .str s := rfl

theorem of?_str (s : String) : of? (.str s) = some (ofText s) := rfl

end Name

end BlockAsm
