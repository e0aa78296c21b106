/-!
Tables that remember the order in which their names came first. Names are told apart by their keys;
writing an entry again changes its value in place, and the name keeps its first spelling.
-/

namespace BlockAsm

/-- What tells the names of a table apart. -/
class Keyed (ν : Type) (κ : outParam Type) where
  key : ν → κ

/-- A name is its own key unless another is given for its type. -/
instance (priority := low) Keyed.self (ν : Type) : Keyed ν ν := ⟨fun n => n⟩

abbrev Table (ν α : Type) := List (ν × α)

namespace Table

variable {ν κ α : Type} [Keyed ν κ] [DecidableEq κ]

def get? : Table ν α → κ → Option α
  | [], _ => none
  | (n, v) :: rest, k => if Keyed.key n = k then some v else get? rest k

def has (t : Table ν α) (k : κ) : Bool := (get? t k).isSome

def set : Table ν α → ν → α → Table ν α
  | [], name, value => [(name, value)]
  | (n, v) :: rest, name, value =>
    if Keyed.key n = Keyed.key name then (n, value) :: rest else (n, v) :: set rest name value

def update (t : Table ν α) (entries : Table ν α) : Table ν α :=
  entries.foldl (fun t e => set t e.1 e.2) t

def names (t : Table ν α) : List ν := t.map Prod.fst

def keys (t : Table ν α) : List κ := t.map fun e => Keyed.key e.1

@[simp] theorem get?_set_self (t : Table ν α) (name : ν) (value : α) :
    get? (set t name value) (Keyed.key name) = some value := by
  induction t with
  | nil => simp [set, get?]
  | cons e rest ih => by_cases h : Keyed.key e.1 = Keyed.key name <;> simp [set, get?, h, ih]

theorem get?_set_of_ne (t : Table ν α) {name : ν} {k : κ} (value : α) (h : k ≠ Keyed.key name) :
    get? (set t name value) k = get? t k := by
  induction t with
  | nil => simp [set, get?, Ne.symm h]
  | cons e rest ih =>
    by_cases hk : Keyed.key e.1 = Keyed.key name
    · simp [set, get?, hk, Ne.symm h]
    · simp [set, get?, hk, ih]

theorem get?_set (t : Table ν α) (name : ν) (k : κ) (value : α) :
    get? (set t name value) k = if k = Keyed.key name then some value else get? t k := by
  split
  · rename_i h
    rw [h, get?_set_self]
  · rename_i h
    exact get?_set_of_ne t value h

/-- A name keeps its place when its entry is written again; a new name comes last. -/
theorem keys_set (t : Table ν α) (name : ν) (value : α) :
    keys (set t name value) =
      if Keyed.key name ∈ keys t then keys t else keys t ++ [Keyed.key name] := by
  induction t with
  | nil => simp [set, keys]
  | cons e rest ih =>
    by_cases h : Keyed.key e.1 = Keyed.key name
    · simp [set, keys, h]
    · have hne : Keyed.key name ≠ Keyed.key e.1 := Ne.symm h
      simp only [keys] at ih
      simp only [set, keys, h, if_false, List.map_cons, List.mem_cons, hne, false_or, ih]
      by_cases hm : Keyed.key name ∈ rest.map fun e => Keyed.key e.1 <;>
        simp only [hm, if_true, if_false, List.cons_append]

theorem get?_eq_none_iff (t : Table ν α) (k : κ) : get? t k = none ↔ k ∉ keys t := by
  induction t with
  | nil => simp [get?, keys]
  | cons e rest ih =>
    by_cases h : Keyed.key e.1 = k
    · simp [get?, keys, h]
    · simp only [keys] at ih
      simp [get?, keys, h, ih, Ne.symm h]

end Table

end BlockAsm
