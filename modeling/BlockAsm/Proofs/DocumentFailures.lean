import BlockAsm.Document
import BlockAsm.Proofs.Slots

/-!
How reading a document can fail. A document is refused for its shape or for an operand of an unknown
kind, and in no other way but one: the tag of an instruction with an integral key is looked up among the
tags that keep their keys, and a tag that is a list or an object cannot be looked up. It comes to that
exactly if everything that is read before such a key can be read.
-/

namespace BlockAsm

/-- A computation fails in a given way or not at all. -/
def Only (P : Failure → Prop) {α : Type} (r : Except Failure α) : Prop := ∀ f, r = .error f → P f

section Only

variable {P : Failure → Prop} {α β : Type}

theorem only_ok (a : α) : Only P (.ok a : Except Failure α) := nofun

theorem only_error_iff {f : Failure} : Only P (.error f : Except Failure α) ↔ P f := by
  constructor
  · exact fun only => only f rfl
  · rintro allowed _ ⟨⟩
    exact allowed

theorem only_bind_iff {r : Except Failure α} {next : α → Except Failure β} :
    Only P (r >>= next) ↔ Only P r ∧ ∀ a, r = .ok a → Only P (next a) := by
  cases r with
  | error f =>
    change Only P (.error f : Except Failure β) ↔ _
    simp [only_error_iff]
  | ok a =>
    change Only P (next a) ↔ _
    simp [only_ok]

theorem only_map_iff {r : Except Failure α} {g : α → β} : Only P (r.map g) ↔ Only P r := by
  cases r with
  | error f => exact only_error_iff.trans only_error_iff.symm
  | ok a => exact iff_of_true (only_ok _) (only_ok a)

theorem only_mapM_iff {g : β → Except Failure α} {xs : List β} :
    Only P (xs.mapM g) ↔ ∀ before x after, xs = before ++ x :: after →
      (∀ y ∈ before, ∃ a, g y = .ok a) → Only P (g x) := by
  induction xs with
  | nil => simp [only_ok, pure, Except.pure]
  | cons head tail ih =>
    rw [List.mapM_cons, only_bind_iff]
    simp only [only_bind_iff, ih]
    constructor
    · rintro ⟨first, rest⟩ before x after split succeed
      cases before with
      | nil =>
        cases split
        exact first
      | cons y before =>
        cases split
        obtain ⟨a, succeeded⟩ := succeed head (by simp)
        exact (rest a succeeded).1 before x after rfl fun y hy => succeed y (by simp [hy])
    · intro each
      refine ⟨each [] head tail rfl nofun, fun a succeeded => ⟨?_, fun b _ => only_ok _⟩⟩
      intro before x after split succeed
      refine each (head :: before) x after (by rw [split, List.cons_append]) ?_
      simpa using ⟨⟨a, succeeded⟩, succeed⟩

end Only

/-- Refusals for the shape of the input, or for an operand of an unknown kind. -/
def Failure.Foreseen : Failure → Prop
  | .refused d => d.kind = .malformedInput ∨ d.kind = .unknownOperandKind
  | _ => False

inductive Value.Part (v : Value) : Value → Prop
  | self : Part v v
  | item {items : List Value} {w : Value} : w ∈ items → Part v w → Part v (.list items)
  | field {fields : Fields} {entry : String × Value} :
      entry ∈ fields → Part v entry.2 → Part v (.object fields)

/-- No text in a value holds a longer run of digits than can be read. -/
def Value.Within (v : Value) : Prop :=
  ∀ s, Part (.str s) v → ∀ run, run <:+: s.toList → (∀ c ∈ run, Text.isDigit c = true) →
    run.length ≤ Integer.maxDigits

namespace Value.Within

theorem item {items : List Value} (within : (list items).Within) {w : Value} (member : w ∈ items) :
    w.Within :=
  fun s part => within s (.item member part)

theorem get? {fields : Fields} (within : (object fields).Within) {name : String} {w : Value}
    (found : Table.get? fields name = some w) : w.Within := by
  obtain ⟨k, member, -⟩ := Table.exists_mem_of_get? found
  exact fun s part => within s (.field member part)

theorem read {fields : Fields} (within : (object fields).Within) (name : String) :
    (Fields.read fields name).Within := by
  unfold Fields.read
  cases found : Table.get? fields name with
  | none => exact fun s part => nomatch part
  | some w => exact within.get? found

end Value.Within

namespace Document

def Readable {α : Type} (r : Except Failure α) : Prop := ∃ a, r = .ok a

section Operands

variable {P : Failure → Prop} (allowed : ∀ f, f.Foreseen → P f)

theorem poolIndex_only {s : String} {letter : Char} {rest digits : List Char}
    (within : (Value.str s).Within) (text : s.toList = letter :: rest)
    (found : poolDigits? rest = some digits) : Only P (poolIndex digits) := by
  have few : digits.length ≤ Integer.maxDigits := by
    simp only [poolDigits?] at found
    split at found
    · cases found
    · split at found
      · cases found
        refine within s .self _ ?_ fun c hc => List.mem_takeWhile_imp hc
        rw [text]
        exact (List.takeWhile_prefix _).isInfix.trans (List.suffix_cons letter rest).isInfix
      · cases found
  rw [poolIndex, if_pos few]
  exact only_ok _

theorem textOperand_only {s : String} (within : (Value.str s).Within) : Only P (textOperand s) := by
  unfold textOperand
  split
  · rename_i text
    split
    · rename_i found
      exact only_map_iff.mpr (poolIndex_only within text found)
    · exact only_ok _
  · rename_i text
    split
    · rename_i found
      exact only_map_iff.mpr (poolIndex_only within text found)
    · exact only_ok _
  · exact only_ok _

include allowed

theorem refuse_only {α : Type} {c : Complaint}
    (kind : c.kind = .malformedInput ∨ c.kind = .unknownOperandKind) :
    Only P (refuse c : Except Failure α) :=
  only_error_iff.mpr (allowed _ kind)

theorem operandIndex_only (fields : Fields) : Only P (operandIndex fields) := by
  unfold operandIndex
  split
  · exact refuse_only allowed (.inl rfl)
  · simp only
    split
    · exact refuse_only allowed (.inl rfl)
    · split
      · exact refuse_only allowed (.inl rfl)
      · exact only_ok _

theorem objectOperand_only (fields : Fields) : Only P (objectOperand fields) := by
  unfold objectOperand
  split
  · split
    · exact only_map_iff.mpr (operandIndex_only allowed fields)
    · exact only_ok _
  · exact only_map_iff.mpr (operandIndex_only allowed fields)
  · exact only_map_iff.mpr (operandIndex_only allowed fields)
  · exact refuse_only allowed (.inr rfl)

theorem operand_only {v : Value} (within : v.Within) : Only P (operand v) := by
  cases v with
  | object fields => exact objectOperand_only allowed fields
  | str s => exact textOperand_only within
  | _ => exact refuse_only allowed (.inr rfl)

theorem operands_only {vs : List Value} (within : ∀ v ∈ vs, v.Within) : Only P (operands vs) := by
  induction vs with
  | nil => exact only_ok _
  | cons v rest ih =>
    simp only [operands, only_bind_iff]
    refine ⟨operand_only allowed (within v (by simp)), fun o _ => ⟨?_, fun os _ => only_ok _⟩⟩
    exact ih fun w hw => within w (by simp [hw])

theorem listField_only (fields : Fields) (name : String) : Only P (listField fields name) := by
  unfold listField
  split
  · exact only_ok _
  · exact only_ok _
  · exact refuse_only allowed (.inl rfl)

theorem destination_only {fields : Fields} (within : (Value.object fields).Within) :
    Only P (destination fields) := by
  unfold destination
  split
  · exact only_ok _
  · exact only_map_iff.mpr (operand_only allowed (within.read "dst"))

/-- The tag is looked up for an integral key, and only then. -/
theorem fieldOperand_only_iff (tag : Value) {v : Value} (name : String) (within : v.Within) :
    Only P (fieldOperand tag name v) ↔ (name = "key" → isIntegral v = true →
      tag.isScalar = false → P (.fault (.tagNotScalar tag))) := by
  unfold fieldOperand
  by_cases key : name = "key" ∧ isIntegral v = true
  · rw [if_pos (by simp [key]), only_map_iff]
    cases tag with
    | list items => simp [keepsKey, Value.isScalar, only_error_iff, key]
    | object fields => simp [keepsKey, Value.isScalar, only_error_iff, key]
    | _ => simp [keepsKey, Value.isScalar, only_ok]
  · rw [if_neg (by simpa using key), only_map_iff]
    refine iff_of_true (operand_only allowed within) fun named integral => ?_
    exact absurd ⟨named, integral⟩ key

theorem fieldOperands_only_iff (tag : Value) {fields : Fields}
    (within : (Value.object fields).Within) (names : List String) :
    Only P (fieldOperands tag fields names) ↔
      ∀ key, "key" ∈ names → Table.get? fields "key" = some key → isIntegral key = true →
        tag.isScalar = false →
        (∀ name ∈ names.takeWhile (· != "key"), ∀ v, Table.get? fields name = some v →
          Readable (operand v)) → P (.fault (.tagNotScalar tag)) := by
  induction names with
  | nil => simp [fieldOperands, only_ok]
  | cons name names ih =>
    unfold fieldOperands
    by_cases named : name = "key"
    · -- Nothing is read before a key that comes first; no key is met after one that is passed.
      subst named
      simp only [List.mem_cons, true_or, bne_self_eq_false, List.takeWhile_cons, Bool.false_eq_true,
        if_false, List.not_mem_nil, false_implies, implies_true, true_implies]
      split
      · rename_i absent
        simp [ih, absent]
      · rename_i v found
        have first := fieldOperand_only_iff allowed tag "key" (within.get? found)
        simp only [only_bind_iff, ih, first, found]
        constructor
        · rintro ⟨looked, -⟩ _ ⟨⟩ integral opaqueTag
          exact looked trivial integral opaqueTag
        · intro whenever
          refine ⟨fun _ => whenever v rfl, fun a _ => ⟨?_, ?_⟩⟩
          · rintro key - held integral opaqueTag -
            exact whenever key held integral opaqueTag
          · rintro ⟨operands, kept⟩ -
            cases a <;> exact only_ok _
    · have before : (name :: names).takeWhile (· != "key") =
          name :: names.takeWhile (· != "key") := List.takeWhile_cons_of_pos (by simpa using named)
      simp only [before, List.mem_cons, Ne.symm named, false_or, forall_eq_or_imp]
      split
      · rename_i absent
        simp [ih, absent]
      · rename_i v found
        have plain : fieldOperand tag name v = (operand v).map .inl := by
          simp [fieldOperand, named]
        simp only [only_bind_iff, plain, ih, only_map_iff, found]
        constructor
        · rintro ⟨-, rest⟩ key present held integral opaqueTag ⟨first, others⟩
          obtain ⟨o, read⟩ := first v rfl
          have next := (rest (.inl o) (by rw [read]; rfl)).1
          exact next key present held integral opaqueTag others
        · intro whenever
          refine ⟨operand_only allowed (within.get? found), fun a succeeded => ⟨?_, ?_⟩⟩
          · intro key present held integral opaqueTag others
            refine whenever key present held integral opaqueTag ⟨?_, others⟩
            rintro _ ⟨⟩
            cases read : operand v with
            | error f =>
              rw [read] at succeeded
              cases succeeded
            | ok o => exact ⟨o, rfl⟩
          · rintro ⟨operands, kept⟩ -
            cases a <;> exact only_ok _

end Operands

/-- An instruction whose tag cannot be looked up and is, since its key is integral and everything that
is read before the key can be read. -/
def TripsOn (tag v : Value) : Prop :=
  ∃ fields key, v = .object fields ∧ Table.get? fields "op" = some tag ∧ tag.isScalar = false ∧
    Table.get? fields "key" = some key ∧ isIntegral key = true ∧ Readable (destination fields) ∧
    ∀ name ∈ operandFields.takeWhile (· != "key"), ∀ u, Table.get? fields name = some u →
      Readable (operand u)

/-- A block in which the instructions before one that trips can be read. -/
def BlockTripsOn (tag v : Value) : Prop :=
  ∃ fields before i after, v = .object fields ∧ (Fields.read fields "name").truthy = true ∧
    Fields.read fields "instrs" = .list (before ++ i :: after) ∧
    (∀ w ∈ before, Readable (instruction w)) ∧ TripsOn tag i

/-- A document in which the blocks before one that trips can be read. -/
def FunctionTripsOn (tag v : Value) : Prop :=
  ∃ fields before b after, v = .object fields ∧
    Fields.read fields "blocks" = .list (before ++ b :: after) ∧
    (∀ w ∈ before, Readable (block w)) ∧ BlockTripsOn tag b

theorem instructions_eq (vs : List Value) :
    instructions vs = (vs.mapM instruction).map fun is => is.map Item.instruction := by
  induction vs with
  | nil => rfl
  | cons v rest ih =>
    rw [instructions, List.mapM_cons, ih]
    cases instruction v with
    | error f => rfl
    | ok i => cases rest.mapM instruction <;> rfl

theorem blocks_eq (vs : List Value) : blocks vs = vs.mapM block := by
  induction vs with
  | nil => rfl
  | cons v rest ih =>
    rw [blocks, List.mapM_cons, ih]
    rfl

theorem read_of_listField {fields : Fields} {name : String} {items : List Value}
    (found : listField fields name = .ok items) (some : items ≠ []) :
    Fields.read fields name = .list items := by
  unfold listField at found
  split at found
  · cases found
    exact absurd rfl some
  · cases found
    assumption
  · cases found

theorem within_of_listField {fields : Fields} (within : (Value.object fields).Within)
    {name : String} {items : List Value} (found : listField fields name = .ok items) {w : Value}
    (member : w ∈ items) : w.Within := by
  have read := within.read name
  rw [read_of_listField found (List.ne_nil_of_mem member)] at read
  exact read.item member

section Parts

variable {P : Failure → Prop} (allowed : ∀ f, f.Foreseen → P f)

include allowed

theorem instruction_only_iff {v : Value} (within : v.Within) :
    Only P (instruction v) ↔ ∀ tag, TripsOn tag v → P (.fault (.tagNotScalar tag)) := by
  cases v with
  | object fields =>
    simp only [instruction]
    split
    · rename_i absent
      refine iff_of_true (refuse_only allowed (.inl rfl)) ?_
      rintro tag ⟨_, _, ⟨⟩, tagged, -⟩
      rw [absent] at tagged
      cases tagged
    · rename_i tag tagged
      have listed : Only P (listField fields "args") := listField_only allowed fields "args"
      have more : ∀ items, listField fields "args" = .ok items → Only P (operands items) :=
        fun items found => operands_only allowed fun w => within_of_listField within found
      simp only [only_bind_iff, fieldOperands_only_iff allowed tag within]
      constructor
      · rintro ⟨-, rest⟩ other ⟨_, key, ⟨⟩, tagged', opaqueTag, held, integral, ⟨d, dest⟩, earlier⟩
        cases tagged.symm.trans tagged'
        exact (rest d dest).1 key (by decide) held integral opaqueTag earlier
      · intro whenever
        refine ⟨destination_only allowed within, fun d dest => ⟨?_, ?_⟩⟩
        · intro key _ held integral opaqueTag earlier
          exact whenever tag ⟨fields, key, rfl, tagged, opaqueTag, held, integral, ⟨d, dest⟩, earlier⟩
        · rintro ⟨named, kept⟩ -
          exact ⟨listed, fun items found => ⟨more items found, fun _ _ => only_ok _⟩⟩
  | _ =>
    refine iff_of_true (refuse_only allowed (.inl rfl)) ?_
    rintro tag ⟨_, _, ⟨⟩, -⟩

theorem block_only_iff {v : Value} (within : v.Within) :
    Only P (block v) ↔ ∀ tag, BlockTripsOn tag v → P (.fault (.tagNotScalar tag)) := by
  cases v with
  | object fields =>
    simp only [block]
    split
    · rename_i labelled
      simp only [only_bind_iff, instructions_eq, only_map_iff, only_mapM_iff]
      constructor
      · rintro ⟨-, rest⟩ tag ⟨_, before, i, after, ⟨⟩, -, listed, readable, trips⟩
        have found : listField fields "instrs" = .ok (before ++ i :: after) := by
          simp only [listField, listed]
        have reached := (rest _ found).1 before i after rfl readable
        exact (instruction_only_iff allowed (within_of_listField within found (by simp))).mp reached tag trips
      · intro whenever
        refine ⟨listField_only allowed fields "instrs", fun vs found => ⟨?_, fun _ _ => only_ok _⟩⟩
        rintro before i after rfl readable
        apply (instruction_only_iff allowed (within_of_listField within found (by simp))).mpr
        intro tag trips
        have listed := read_of_listField found (by simp)
        exact whenever tag ⟨fields, before, i, after, rfl, labelled, listed, readable, trips⟩
    · rename_i unlabelled
      refine iff_of_true (refuse_only allowed (.inl rfl)) ?_
      rintro tag ⟨_, _, _, _, ⟨⟩, labelled, -⟩
      exact absurd labelled unlabelled
  | _ =>
    refine iff_of_true (refuse_only allowed (.inl rfl)) ?_
    rintro tag ⟨_, _, _, _, ⟨⟩, -⟩

theorem header_only (fields : Fields) : Only P (header fields) := by
  unfold header
  simp only
  split
  · split
    · exact only_ok _
    · exact refuse_only allowed (.inl rfl)
  · exact only_ok _

theorem upvalues_only (vs : List Value) (index : Nat) : Only P (upvalues index vs) := by
  induction vs generalizing index with
  | nil => exact only_ok _
  | cons v rest ih =>
    simp only [upvalues, only_bind_iff]
    refine ⟨?_, fun d _ => ⟨ih (index + 1), fun ds _ => only_ok _⟩⟩
    cases v with
    | str s => exact only_ok _
    | object fields => exact only_ok _
    | _ => exact refuse_only allowed (.inl rfl)

/-- What is read after the blocks is refused for its shape or not at all. -/
theorem function_only_iff {v : Value} (within : v.Within) :
    Only P (function v) ↔ ∀ tag, FunctionTripsOn tag v → P (.fault (.tagNotScalar tag)) := by
  cases v with
  | object fields =>
    simp only [function, only_bind_iff, blocks_eq, only_mapM_iff]
    constructor
    · rintro ⟨-, rest⟩ tag ⟨_, before, b, after, ⟨⟩, listed, readable, trips⟩
      have found : listField fields "blocks" = .ok (before ++ b :: after) := by
        simp only [listField, listed]
      have reached := (rest _ found).1 before b after rfl readable
      exact (block_only_iff allowed (within_of_listField within found (by simp))).mp reached tag trips
    · intro whenever
      refine ⟨listField_only allowed fields "blocks", fun vs found => ⟨?_, fun bs _ => ?_⟩⟩
      · rintro before b after rfl readable
        apply (block_only_iff allowed (within_of_listField within found (by simp))).mpr
        intro tag trips
        have listed := read_of_listField found (by simp)
        exact whenever tag ⟨fields, before, b, after, rfl, listed, readable, trips⟩
      · refine ⟨header_only allowed fields, fun header _ =>
          ⟨listField_only allowed fields "upvalues", fun declared _ =>
            ⟨upvalues_only allowed declared 0, fun upvalues _ =>
              ⟨listField_only allowed fields "consts", fun consts _ =>
                ⟨listField_only allowed fields "locals", fun locals _ => only_ok _⟩⟩⟩⟩⟩
  | _ =>
    refine iff_of_true (refuse_only allowed (.inl rfl)) ?_
    rintro tag ⟨_, _, _, _, ⟨⟩, -⟩

end Parts

/-- Reading a document fails in a foreseen way, if at all, unless it comes to look up a tag that cannot
be looked up; then the tag is what is at fault. -/
theorem function_foreseen_iff {v : Value} (within : v.Within) :
    ((∀ f, function v = .error f → f.Foreseen) ↔ ¬ ∃ tag, FunctionTripsOn tag v) ∧
      ∀ tag, function v = .error (.fault (.tagNotScalar tag)) ↔ FunctionTripsOn tag v := by
  constructor
  · have settled := function_only_iff (P := Failure.Foreseen) (fun _ foreseen => foreseen) within
    rw [← Only, settled]
    simp [Failure.Foreseen]
  · intro tag
    -- That a failure is not this one is a kind of failure that includes the foreseen ones.
    have others := function_only_iff (P := (· ≠ .fault (.tagNotScalar tag)))
      (by rintro _ foreseen rfl; exact foreseen) within
    constructor
    · intro failed
      by_contra passes
      refine others.mpr ?_ _ failed rfl
      rintro other trips same
      cases same
      exact passes trips
    · intro trips
      by_contra unfailed
      refine others.mp ?_ tag trips rfl
      rintro f failed rfl
      exact unfailed failed

/-- A function with one instruction, whose tag is a list and whose key is a number. -/
def listedTag : Value :=
  .object [("blocks", .list [.object [("name", .str "entry"),
    ("instrs", .list [.object [("op", .list [.str "settabup"]), ("key", .int 1)]])]])]

theorem listedTag_within : listedTag.Within := by
  intro s part run inside _
  have short : s = "entry" ∨ s = "settabup" := by
    simp only [listedTag] at part
    rcases part with _ | _ | ⟨member, part⟩
    rw [List.mem_singleton.mp member] at part
    rcases part with _ | ⟨member, part⟩ | _
    rw [List.mem_singleton.mp member] at part
    rcases part with _ | _ | ⟨member, part⟩
    rcases List.mem_pair.mp member with rfl | rfl
    · cases part
      exact .inl rfl
    · rcases part with _ | ⟨member, part⟩ | _
      rw [List.mem_singleton.mp member] at part
      rcases part with _ | _ | ⟨member, part⟩
      rcases List.mem_pair.mp member with rfl | rfl
      · rcases part with _ | ⟨member, part⟩ | _
        rw [List.mem_singleton.mp member] at part
        cases part
        exact .inr rfl
      · cases part
  have bound := inside.length_le
  rcases short with rfl | rfl <;> exact bound.trans (by decide)

theorem function_listedTag :
    function listedTag = .error (.fault (.tagNotScalar (.list [.str "settabup"]))) := by rfl

theorem function_foreseen_iff_at_listedTag :
    listedTag.Within ∧ FunctionTripsOn (.list [.str "settabup"]) listedTag ∧
      ¬ ∀ f, function listedTag = .error f → f.Foreseen := by
  obtain ⟨foreseen, tripping⟩ := function_foreseen_iff listedTag_within
  have trips := (tripping _).mp function_listedTag
  exact ⟨listedTag_within, trips, fun all => foreseen.mp all ⟨_, trips⟩⟩

theorem listedTag_unforeseen :
    listedTag.Within ∧ ∃ f, function listedTag = .error f ∧ ¬ f.Foreseen :=
  ⟨listedTag_within, _, function_listedTag, id⟩

end Document

end BlockAsm
