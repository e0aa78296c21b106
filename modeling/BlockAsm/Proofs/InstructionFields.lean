import BlockAsm.Proofs.DocumentFailures
import BlockAsm.Proofs.Renaming

/-!
Where the fields of an instruction object go. Its destination, its operands and its metadata are made of
different fields, and together of all that are not null: the operands in an order of their own, the
metadata in the order of the object. An integral key is an operand, or metadata that comes first where
the tag is one for reading the environment. The order of the object's fields shows in the order of the
metadata and nowhere else.
-/

namespace BlockAsm

namespace Table

variable {ν κ α : Type} [Keyed ν κ] [DecidableEq κ]

theorem get?_append (t u : Table ν α) (k : κ) : get? (t ++ u) k = (get? t k).or (get? u k) := by
  induction t with
  | nil => rfl
  | cons e rest ih =>
    rw [List.cons_append, get?, get?, ih]
    split <;> rfl

/-- What is found in a table does not depend on its order if no name is listed twice. -/
theorem get?_of_perm {t u : Table ν α} (distinct : (keys t).Nodup) (reordered : t.Perm u) (k : κ) :
    get? t k = get? u k := by
  induction reordered with
  | nil => rfl
  | cons e _ ih =>
    rw [get?, get?, ih (List.nodup_cons.mp distinct).2]
  | swap e f rest =>
    have apart : Keyed.key f.1 ≠ Keyed.key e.1 := by
      intro same
      apply (List.nodup_cons.mp distinct).1
      simp [same]
    simp only [get?]
    by_cases first : Keyed.key f.1 = k
    · have second : Keyed.key e.1 ≠ k := fun same => apart (first.trans same.symm)
      simp only [if_pos first, if_neg second]
    · simp only [if_neg first]
  | trans first _ ih ih' =>
    have kept := (first.map fun e : ν × α => Keyed.key e.1).nodup_iff.mp distinct
    rw [ih distinct, ih' kept]

end Table

namespace Document

inductive Part where
  | destination
  | operands
  | metadata
  deriving DecidableEq, Repr

def operandOrder : List String :=
  ["upval", "func", "idx", "src", "lhs", "rhs", "limit", "step", "key", "value", "args"]

/-- An integral key of an instruction that reads the environment. -/
def isKept (tag : Value) (e : String × Value) : Bool :=
  e.1 == "key" && isIntegral e.2 && (tag.isText "getfield_env" || tag.isText "gettabup")

def select (fields : Fields) (names : List String) : Fields :=
  names.filterMap fun name => (Table.get? fields name).map fun v => (name, v)

/-- The fields of an object that a part of the instruction is made of, in their order there. -/
def Part.entries (tag : Value) (fields : Fields) : Part → Fields
  | .destination => (select fields ["dst"]).filter fun e => !e.2.isNull
  | .operands => (select fields operandOrder).filter fun e =>
    !isKept tag e && !(e.1 == "args" && e.2.isNull)
  | .metadata => (select fields ["key"]).filter (isKept tag) ++
    fields.filter fun e => !("op" :: "dst" :: operandOrder).contains e.1

inductive Gives : String × Value → List Operand → Prop
  | single {name : String} {v : Value} {o : Operand} : name ≠ "args" →
      (name = "key" → isIntegral v = false) → operand v = .ok o → Gives (name, v) [o]
  | key {v : Value} : isIntegral v = true → Gives ("key", v) [.constant v]
  | list {items : List Value} {os : List Operand} :
      List.Forall₂ (fun v o => operand v = .ok o) items os → Gives ("args", .list items) os

/-- What an instruction has of the fields of its object. -/
structure Accounts (fields : Fields) (i : Instruction) : Prop where
  tag : Table.get? fields "op" = some i.tag
  dest : List.Forall₂ (fun e o => operand e.2 = .ok o) (Part.destination.entries i.tag fields)
    i.dest.toList
  args : ∃ shares, List.Forall₂ Gives (Part.operands.entries i.tag fields) shares ∧
    i.args = shares.flatten
  metadata : i.metadata = .object (Part.metadata.entries i.tag fields)

theorem mem_select {fields : Fields} {names : List String} {e : String × Value} :
    e ∈ select fields names ↔ e.1 ∈ names ∧ Table.get? fields e.1 = some e.2 := by
  obtain ⟨name, v⟩ := e
  simp only [select, List.mem_filterMap, Option.map_eq_some_iff, Prod.mk.injEq]
  constructor
  · rintro ⟨name, listed, v, found, rfl, rfl⟩
    exact ⟨listed, found⟩
  · rintro ⟨listed, found⟩
    exact ⟨name, listed, v, found, rfl, rfl⟩

theorem select_cons (fields : Fields) (name : String) (names : List String) :
    select fields (name :: names) = select fields [name] ++ select fields names := by
  cases found : Table.get? fields name <;> simp [select, found]

theorem select_append (fields : Fields) (first second : List String) :
    select fields (first ++ second) = select fields first ++ select fields second :=
  List.filterMap_append

theorem select_of_get? {fields : Fields} {name : String} {v : Value}
    (found : Table.get? fields name = some v) : select fields [name] = [(name, v)] := by
  simp [select, found]

theorem select_of_absent {fields : Fields} {name : String} (absent : Table.get? fields name = none) :
    select fields [name] = [] := by
  simp [select, absent]

theorem eq_key_of_isKept {tag : Value} {e : String × Value} (kept : isKept tag e = true) :
    e.1 = "key" := by
  simp only [isKept, Bool.and_eq_true, beq_iff_eq] at kept
  exact kept.1.1

theorem filter_isKept_eq_nil {tag : Value} {fields : Fields} {names : List String}
    (keyless : "key" ∉ names) : (select fields names).filter (isKept tag) = [] := by
  rw [List.filter_eq_nil_iff]
  intro e listed kept
  exact keyless (eq_key_of_isKept kept ▸ (mem_select.mp listed).1)

theorem keepsKey_eq_ok {tag : Value} {kept : Bool} (answered : keepsKey tag = .ok kept) :
    kept = (tag.isText "getfield_env" || tag.isText "gettabup") := by
  cases tag with
  | str s =>
    simp only [keepsKey, Except.ok.injEq] at answered
    simp only [Value.isText, ← answered, BEq.comm (a := s)]
  | list items => cases answered
  | object fields => cases answered
  | _ =>
    cases answered
    rfl

theorem fieldOperand_eq_ok {tag v : Value} {name : String} {found : Operand ⊕ Value}
    (plain : name ≠ "args") (read : fieldOperand tag name v = .ok found) :
    (isKept tag (name, v) = true ∧ found = .inr v) ∨
      isKept tag (name, v) = false ∧ ∃ o, found = .inl o ∧ Gives (name, v) [o] := by
  unfold fieldOperand at read
  split at read
  · rename_i integral
    cases answered : keepsKey tag with
    | error f =>
      rw [answered] at read
      cases read
    | ok kept =>
      have tagged := keepsKey_eq_ok answered
      rw [answered] at read
      have decided : isKept tag (name, v) = kept := by rw [isKept, integral, ← tagged, Bool.true_and]
      simp only [Bool.and_eq_true, beq_iff_eq] at integral
      obtain ⟨rfl, integral⟩ := integral
      cases kept with
      | true =>
        cases read
        exact .inl ⟨decided, rfl⟩
      | false =>
        cases read
        exact .inr ⟨decided, .constant v, rfl, .key integral⟩
  · rename_i other
    have unkept : isKept tag (name, v) = false := by
      rw [isKept, Bool.eq_false_iff.mpr other, Bool.false_and]
    cases single : operand v with
    | error f =>
      rw [single] at read
      cases read
    | ok o =>
      rw [single] at read
      cases read
      refine .inr ⟨unkept, o, rfl, .single plain ?_ single⟩
      rintro rfl
      simpa using other

theorem fieldOperands_eq_ok {tag : Value} {fields : Fields} {names : List String}
    {os : List Operand} {kept : Fields} (once : names.Nodup) (plain : "args" ∉ names)
    (read : fieldOperands tag fields names = .ok (os, kept)) :
    (∃ shares, List.Forall₂ Gives ((select fields names).filter fun e => !isKept tag e) shares ∧
      os = shares.flatten) ∧ kept = (select fields names).filter (isKept tag) := by
  induction names generalizing os kept with
  | nil =>
    cases read
    exact ⟨⟨[], .nil, rfl⟩, rfl⟩
  | cons name names ih =>
    obtain ⟨fresh, onceRest⟩ := List.nodup_cons.mp once
    have plainRest := List.not_mem_of_not_mem_cons plain
    unfold fieldOperands at read
    rw [select_cons]
    split at read
    · rename_i absent
      rw [select_of_absent absent, List.nil_append]
      exact ih onceRest plainRest read
    · rename_i v present
      rw [select_of_get? present, List.singleton_append]
      simp only [Except.bind_eq_ok] at read
      obtain ⟨found, first, ⟨more, rest⟩, others, combined⟩ := read
      obtain ⟨⟨shares, given, rfl⟩, rfl⟩ := ih onceRest plainRest others
      rcases fieldOperand_eq_ok (Ne.symm (List.ne_of_not_mem_cons plain)) first with
        ⟨held, rfl⟩ | ⟨free, o, rfl, gives⟩
      · -- no other name is that of the key, so the key is kept alone
        cases eq_key_of_isKept held
        rw [filter_isKept_eq_nil fresh] at combined
        cases combined
        refine ⟨⟨shares, ?_, rfl⟩, ?_⟩
        · rwa [List.filter_cons_of_neg (by simp [held])]
        · rw [List.filter_cons_of_pos held, filter_isKept_eq_nil fresh]
          rfl
      · cases combined
        refine ⟨⟨[o] :: shares, ?_, rfl⟩, ?_⟩
        · rw [List.filter_cons_of_pos (by simp [free])]
          exact .cons gives given
        · rw [List.filter_cons_of_neg (by simp [free])]

theorem forall₂_of_mapM {α β : Type} {g : β → Except Failure α} {xs : List β} {ys : List α}
    (read : xs.mapM g = .ok ys) : List.Forall₂ (fun x y => g x = .ok y) xs ys := by
  induction xs generalizing ys with
  | nil =>
    cases read
    exact .nil
  | cons x rest ih =>
    simp only [List.mapM_cons, Except.bind_eq_ok] at read
    obtain ⟨y, first, more, others, combined⟩ := read
    cases combined
    exact .cons first (ih others)

theorem operands_eq (vs : List Value) : operands vs = vs.mapM operand := by
  induction vs with
  | nil => rfl
  | cons v rest ih =>
    rw [operands, List.mapM_cons, ih]
    rfl

/-- The further operands come of the field that lists them, unless it is null or missing. -/
theorem listed_gives {fields : Fields} {items : List Value} {os : List Operand}
    (listed : listField fields "args" = .ok items) (read : operands items = .ok os) :
    ∃ shares, List.Forall₂ Gives ((select fields ["args"]).filter fun e => !e.2.isNull) shares ∧
      os = shares.flatten := by
  rw [operands_eq] at read
  have each := forall₂_of_mapM read
  have empty : items = [] → os = [] := by
    rintro rfl
    exact List.forall₂_nil_left_iff.mp each
  unfold listField at listed
  cases found : Table.get? fields "args" with
  | none =>
    rw [Fields.read, found] at listed
    cases listed
    rw [select_of_absent found]
    exact ⟨[], .nil, empty rfl⟩
  | some v =>
    rw [Fields.read, found] at listed
    rw [select_of_get? found]
    cases v with
    | null =>
      cases listed
      exact ⟨[], .nil, empty rfl⟩
    | list found =>
      cases listed
      exact ⟨[os], .cons (.list each) .nil, by simp⟩
    | _ => cases listed

theorem destination_eq_ok {fields : Fields} {dest : Option Operand}
    (read : destination fields = .ok dest) (tag : Value) :
    List.Forall₂ (fun e o => operand e.2 = .ok o) (Part.destination.entries tag fields)
      dest.toList := by
  unfold destination at read
  unfold Part.entries
  cases found : Table.get? fields "dst" with
  | none =>
    rw [Fields.read, found] at read
    cases read
    rw [select_of_absent found]
    exact .nil
  | some v =>
    rw [Fields.read, found, Option.getD_some] at read
    rw [select_of_get? found]
    split at read
    · cases read
      exact .nil
    · rename_i given
      cases single : operand v with
      | error f =>
        rw [single] at read
        cases read
      | ok o =>
        rw [single] at read
        cases read
        have present : v.isNull = false := by
          cases v with
          | null => exact absurd rfl given
          | _ => rfl
        rw [List.filter_cons_of_pos (by simp [present])]
        exact .cons single .nil

theorem entries_operands (tag : Value) (fields : Fields) : Part.operands.entries tag fields =
    ((select fields operandFields).filter fun e => !isKept tag e) ++
      (select fields ["args"]).filter fun e => !e.2.isNull := by
  have order : operandOrder = operandFields ++ ["args"] := rfl
  rw [Part.entries, order, select_append, List.filter_append]
  congr 1
  · apply List.filter_congr
    intro e listed
    have other : e.1 ≠ "args" := by
      intro same
      have named := (mem_select.mp listed).1
      rw [same] at named
      revert named
      decide
    simp [other]
  · apply List.filter_congr
    intro e listed
    have named : e.1 = "args" := List.mem_singleton.mp (mem_select.mp listed).1
    simp [named, isKept]

theorem mem_ownFields_iff (name : String) :
    name ∈ ownFields ↔ name ∈ "op" :: "dst" :: operandOrder := by
  have reordered : ownFields.Perm ("op" :: "dst" :: operandOrder) := by decide
  exact reordered.mem_iff

theorem entries_metadata (tag : Value) (fields : Fields) : Part.metadata.entries tag fields =
    (select fields operandFields).filter (isKept tag) ++
      fields.filter fun e => !ownFields.contains e.1 := by
  have fixed : operandFields =
      ["upval", "func", "idx", "src", "lhs", "rhs", "limit", "step"] ++ (["key"] ++ ["value"]) := rfl
  have before : (select fields ["upval", "func", "idx", "src", "lhs", "rhs", "limit", "step"]).filter
      (isKept tag) = [] := filter_isKept_eq_nil (by decide)
  have after : (select fields ["value"]).filter (isKept tag) = [] := filter_isKept_eq_nil (by decide)
  rw [Part.entries, fixed, select_append, select_append, List.filter_append, List.filter_append, before,
    after, List.nil_append, List.append_nil]
  congr 1
  apply List.filter_congr
  intro e _
  rw [Bool.eq_iff_iff]
  simp only [Bool.not_eq_true', ← Bool.not_eq_true, List.contains_iff_mem, mem_ownFields_iff]

theorem instruction_accounts {fields : Fields} {i : Instruction}
    (accepted : instruction (.object fields) = .ok i) : Accounts fields i := by
  simp only [instruction] at accepted
  split at accepted
  · cases accepted
  · rename_i tag tagged
    simp only [Except.bind_eq_ok] at accepted
    obtain ⟨dest, target, ⟨named, kept⟩, fielded, items, listed, more, further, made⟩ := accepted
    cases made
    obtain ⟨⟨first, given, rfl⟩, rfl⟩ := fieldOperands_eq_ok (by decide) (by decide) fielded
    obtain ⟨second, givenMore, rfl⟩ := listed_gives listed further
    refine ⟨tagged, destination_eq_ok target tag, ⟨first ++ second, ?_, List.flatten_append.symm⟩, ?_⟩
    · rw [entries_operands]
      exact List.rel_append given givenMore
    · rw [entries_metadata]

/-- The part of the instruction that a field goes to. -/
def Part.of (tag : Value) (e : String × Value) : Part :=
  if e.1 = "dst" then .destination
  else if e.1 ∈ operandOrder ∧ isKept tag e = false then .operands
  else .metadata

theorem mem_entries_iff {tag : Value} {fields : Fields} (distinct : (Table.keys fields).Nodup)
    {e : String × Value} (listed : e ∈ fields) (given : e.2 ≠ .null) (other : e.1 ≠ "op")
    (part : Part) : e ∈ part.entries tag fields ↔ part = Part.of tag e := by
  have found : Table.get? fields e.1 = some e.2 := Table.get?_of_mem distinct listed
  have present : e.2.isNull = false := by
    cases shape : e.2 with
    | null => exact absurd shape given
    | _ => rfl
  have selected : ∀ names, e ∈ select fields names ↔ e.1 ∈ names := fun names => by
    rw [mem_select, and_iff_left found]
  have target : e.1 ∈ operandOrder → e.1 ≠ "dst" := by
    intro named same
    rw [same] at named
    revert named
    decide
  have key : isKept tag e = true → e.1 = "key" ∧ e.1 ∈ operandOrder := by
    intro kept
    have same := eq_key_of_isKept kept
    refine ⟨same, ?_⟩
    rw [same]
    decide
  unfold Part.of
  cases part with
  | destination =>
    simp only [Part.entries, List.mem_filter, selected, present]
    grind
  | operands =>
    simp only [Part.entries, List.mem_filter, selected, present]
    grind
  | metadata =>
    simp only [Part.entries, List.mem_append, List.mem_filter, selected, List.contains_cons]
    grind

theorem fieldOperands_congr {fields other : Fields}
    (same : ∀ name, Table.get? fields name = Table.get? other name) (tag : Value)
    (names : List String) : fieldOperands tag fields names = fieldOperands tag other names := by
  induction names with
  | nil => rfl
  | cons name names ih => simp only [fieldOperands, same, ih]

/-- Instructions with the same tag, destination and operands, and with the same metadata up to their
order. -/
structure SameButForOrder (i j : Instruction) : Prop where
  tag : i.tag = j.tag
  dest : i.dest = j.dest
  args : i.args = j.args
  metadata : ∃ m n : Fields, i.metadata = .object m ∧ j.metadata = .object n ∧ m.Perm n ∧
    ∀ name, Table.get? m name = Table.get? n name

theorem instruction_perm {fields other : Fields} (distinct : (Table.keys fields).Nodup)
    (reordered : fields.Perm other) :
    Matches SameButForOrder (instruction (.object fields)) (instruction (.object other)) := by
  have same := Table.get?_of_perm distinct reordered
  have read : ∀ name, Fields.read fields name = Fields.read other name := fun name => by
    rw [Fields.read, Fields.read, same]
  have remaining := reordered.filter fun e => !ownFields.contains e.1
  have found : ∀ name, Table.get? (fields.filter fun e => !ownFields.contains e.1) name =
      Table.get? (other.filter fun e => !ownFields.contains e.1) name :=
    Table.get?_of_perm ((List.filter_sublist.map _).nodup distinct) remaining
  simp only [instruction, destination, listField, ← same, ← read, ← fieldOperands_congr same]
  split
  · exact .error (.refused rfl rfl)
  · rename_i tag tagged
    refine Matches.bind (.refl _) ?_
    rintro dest _ rfl
    refine Matches.bind (.refl _) ?_
    rintro ⟨named, kept⟩ _ rfl
    refine Matches.bind (.refl _) ?_
    rintro items _ rfl
    refine Matches.bind (.refl _) ?_
    rintro more _ rfl
    refine .ok ⟨rfl, rfl, rfl, _, _, rfl, rfl, remaining.append_left kept, fun name => ?_⟩
    rw [Table.get?_append, Table.get?_append, found]

/-- An instruction object that is accepted is accounted for: every field that is not null, other than
the tag, goes to exactly one part of the instruction. Its fields in another order are read as the same
instruction, or refused in the same way. -/
theorem instruction_fields {fields : Fields} (distinct : (Table.keys fields).Nodup) :
    (∀ i, instruction (.object fields) = .ok i → Accounts fields i ∧
      ∀ e ∈ fields, e.2 ≠ .null → e.1 ≠ "op" → ∃! part : Part, e ∈ part.entries i.tag fields) ∧
    ∀ other, fields.Perm other →
      Matches SameButForOrder (instruction (.object fields)) (instruction (.object other)) := by
  refine ⟨fun i accepted => ⟨instruction_accounts accepted, ?_⟩, fun other => instruction_perm distinct⟩
  intro e listed given untagged
  have parted : ∀ part : Part, e ∈ part.entries i.tag fields ↔ part = Part.of i.tag e :=
    mem_entries_iff distinct listed given untagged
  exact ⟨Part.of i.tag e, (parted _).mpr rfl, fun part => (parted part).mp⟩

/-- A read of the environment whose key stands first and whose tag stands in the middle. -/
def shuffledRead : Fields :=
  [("key", .int 2), ("note", .str "x"), ("args", .list [.str "K1", .str "$a"]),
    ("op", .str "gettabup"), ("upval", .str "U0"), ("line", .null), ("dst", .str "d")]

theorem instruction_fields_of_shuffledRead :
    (Table.keys shuffledRead).Nodup ∧
      instruction (.object shuffledRead) = .ok
        { tag := .str "gettabup"
          dest := some (.register (.str "d"))
          args := [.upvalue (.int 0), .constant (.int 1), .register (.str "a")]
          metadata := .object [("key", .int 2), ("note", .str "x"), ("line", .null)] } ∧
      (∃! part : Part, ("key", .int 2) ∈ part.entries (.str "gettabup") shuffledRead) ∧
      Matches SameButForOrder (instruction (.object shuffledRead))
        (instruction (.object shuffledRead.reverse)) := by
  have distinct : (Table.keys shuffledRead).Nodup := by decide
  obtain ⟨accepted, reordered⟩ := instruction_fields distinct
  have read : instruction (.object shuffledRead) = .ok
      { tag := .str "gettabup"
        dest := some (.register (.str "d"))
        args := [.upvalue (.int 0), .constant (.int 1), .register (.str "a")]
        metadata := .object [("key", .int 2), ("note", .str "x"), ("line", .null)] } := by rfl
  refine ⟨distinct, read, ?_, reordered _ (List.reverse_perm _).symm⟩
  exact (accepted _ read).2 ("key", .int 2) (by simp [shuffledRead]) nofun (by decide)

end Document

end BlockAsm
