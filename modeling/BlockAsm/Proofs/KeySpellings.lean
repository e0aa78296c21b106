import BlockAsm.Proofs.ConstantPool
import BlockAsm.Proofs.OperandIndices

/-!
The two spellings of a key. A natural number and the reference to the constant of that number are read as
the same operand, so an instruction is lowered alike with either of them, for every tag but those that
read a field of the environment. With these a number is metadata and a reference is an operand: the line
then shows the older key field instead, and the reference stands for the environment if no other operand
comes before the key. Apart from that, a tag that cannot be looked up is noticed earlier with a number.
-/

namespace BlockAsm

/-- The classes of faults: what was asked of a value that it does not admit. -/
inductive FaultKind where
  | wrongType
  | missingPart
  | badValue
  | badPattern
  | tooLarge
  | badDocument
  | badEncoding
  | unencodable
  /-- What is not described here. -/
  | unread
  | noFile
  | isDirectory
  | notDirectory
  | host
  deriving DecidableEq, Repr

def FileError.kind : FileError → FaultKind
  | .notFound => .noFile
  | .isDirectory => .isDirectory
  | .notDirectory => .notDirectory
  | .nullCharacter => .badValue
  | .unencodable => .unencodable
  | .busy | .nameTooLong | .system _ => .host

def Fault.kind : Fault → FaultKind
  | .notObject _ | .itemNotInstruction _ | .upvalueNotDeclared _ => .missingPart
  | .tooManyDigits | .noFileName => .badValue
  | .suffixInvalid _ => .badPattern
  | .suffixTooLarge _ => .tooLarge
  | .suffixUnread _ | .characterReserved => .unread
  | .configMalformed _ => .badDocument
  | .configEncoding _ => .badEncoding
  | .file e => e.kind
  | _ => .wrongType

inductive FailureKind where
  | complaint (kind : ComplaintKind)
  | fault (kind : FaultKind)
  | unfinished
  deriving DecidableEq, Repr

def Failure.kind : Failure → FailureKind
  | .refused d => .complaint d.kind
  | .fault f => .fault f.kind
  | .passMismatch _ _ _ => .fault .wrongType
  | .unfinished _ => .unfinished

/-- The same result, or failures of one class. -/
inductive SameOutcome {α : Type} : Except Failure α → Except Failure α → Prop
  | ok (a : α) : SameOutcome (.ok a) (.ok a)
  | error {f g : Failure} : f.kind = g.kind → SameOutcome (.error f) (.error g)

namespace SameOutcome

variable {α : Type}

theorem refl (r : Except Failure α) : SameOutcome r r := by
  cases r with
  | ok a => exact .ok a
  | error f => exact .error rfl

theorem ok_iff {a b : α} : SameOutcome (.ok a) (.ok b) ↔ a = b := by
  constructor
  · intro agree
    cases agree
    rfl
  · intro same
    exact same ▸ .ok a

theorem error_iff {f g : Failure} :
    SameOutcome (.error f : Except Failure α) (.error g) ↔ f.kind = g.kind := by
  constructor
  · intro agree
    cases agree
    assumption
  · exact .error

end SameOutcome

namespace Context

/-- What an instruction is written as, or why it is not. -/
def written (c : Context) (i : Instruction) : Except Failure (List Value) :=
  (c.lower (.instruction i)).2.map fun _ => (c.emitted (.instruction i)).map Line.value

variable (c : Context) {i : Instruction}

theorem written_of_abort {why : Failure} (made : i.recipe = .abort [] why) :
    c.written i = .error why := by
  have performed : (c.lower (.instruction i)).2 = .error why := by
    rw [lower, made]
    rfl
  rw [written, performed]
  rfl

theorem written_of_line {o : Opcode} {operands : List Operand} {immediates : List Value}
    (made : i.recipe = .line o operands immediates) :
    c.written i = (c.allocator.resolveAll operands).2.map fun tokens =>
      [.str (Code.text ⟨o, tokens, immediates⟩)] := by
  rcases resolved : c.allocator.resolveAll operands with ⟨a, f | tokens⟩
  · have performed : (c.lower (.instruction i)).2 = .error f := by
      rw [lower, made, perform, resolved]
    rw [written, performed]
    rfl
  · have performed : c.lower (.instruction i) =
        ((c.withAllocator a).writeCode o tokens immediates, .ok ()) := by
      rw [lower, made, perform, resolved]
    have emission : c.emitted (.instruction i) = [.code ⟨o, tokens, immediates⟩] :=
      emitted_eq (by rw [performed]; rfl)
    rw [written, performed, emission]
    rfl

end Context

namespace Document

def written (c : Context) (v : Value) : Except Failure (List Value) := instruction v >>= c.written

def fieldsBeforeKey : List String := ["upval", "func", "idx", "src", "lhs", "rhs", "limit", "step"]

def beforeKey (fields : Fields) : Except Failure (Option Operand × List Operand) := do
  let dest ← destination fields
  let named ← operands (fieldsBeforeKey.filterMap (Table.get? fields))
  .ok (dest, named)

def afterKey (fields : Fields) : Except Failure (List Operand) := do
  let named ← operands (["value"].filterMap (Table.get? fields))
  let listed ← listField fields "args"
  let more ← operands listed
  .ok (named ++ more)

def otherFields (fields : Fields) : Fields := fields.filter fun f => !ownFields.contains f.1

def withKey (fields : Fields) (key : Value) : Fields := Table.set fields "key" key

/-- An instruction object's parts, with the operands and the metadata that come of its key. -/
def assembled (tag : Value) (dest : Option Operand) (before after : List Operand) (fields : Fields)
    (key : List Operand × Fields) : Instruction :=
  { tag := tag, dest := dest, args := before ++ key.1 ++ after,
    metadata := .object (key.2 ++ otherFields fields) }

theorem otherFields_withKey (fields : Fields) (key : Value) :
    otherFields (withKey fields key) = otherFields fields := by
  induction fields with
  | nil => rfl
  | cons e rest ih =>
    rw [withKey, Table.set]
    split
    · rename_i same
      have named : e.1 = "key" := same
      simp only [otherFields, List.filter_cons, named]
      rfl
    · simp only [otherFields, List.filter_cons] at ih ⊢
      rw [← ih]
      rfl

theorem get?_withKey (fields : Fields) (key : Value) {name : String} (other : name ≠ "key") :
    Table.get? (withKey fields key) name = Table.get? fields name :=
  Table.get?_set_of_ne fields key other

theorem get?_withKey_key (fields : Fields) (key : Value) :
    Table.get? (withKey fields key) "key" = some key :=
  Table.get?_set_self fields "key" key

theorem read_withKey (fields : Fields) (key : Value) {name : String} (other : name ≠ "key") :
    Fields.read (withKey fields key) name = Fields.read fields name := by
  rw [Fields.read, get?_withKey fields key other, Fields.read]

theorem filterMap_withKey (fields : Fields) (key : Value) {names : List String}
    (keyless : "key" ∉ names) :
    names.filterMap (Table.get? (withKey fields key)) = names.filterMap (Table.get? fields) := by
  apply List.filterMap_congr
  intro name listed
  apply get?_withKey
  rintro rfl
  exact keyless listed

/-- Fields before the key are read as operands, and none of them is kept. -/
theorem fieldOperands_append (tag : Value) (fields : Fields) {names : List String}
    (keyless : "key" ∉ names) (more : List String) :
    fieldOperands tag fields (names ++ more) =
      operands (names.filterMap (Table.get? fields)) >>= fun os =>
        fieldOperands tag fields more >>= fun rest => .ok (os ++ rest.1, rest.2) := by
  induction names with
  | nil =>
    simp only [List.nil_append, List.filterMap_nil, operands, Except.ok_bind]
    cases fieldOperands tag fields more <;> rfl
  | cons name names ih =>
    have apart : name ≠ "key" := Ne.symm (List.ne_of_not_mem_cons keyless)
    have following := ih (List.not_mem_of_not_mem_cons keyless)
    rw [List.cons_append, fieldOperands]
    cases found : Table.get? fields name with
    | none =>
      rw [List.filterMap_cons_none found]
      exact following
    | some v =>
      have single : fieldOperand tag name v = (operand v).map .inl := by
        rw [fieldOperand, if_neg (by simp [apart])]
      rw [List.filterMap_cons_some found, operands]
      simp only [single, following]
      cases operand v with
      | error f => rfl
      | ok o =>
        cases operands (names.filterMap (Table.get? fields)) with
        | error f => rfl
        | ok os =>
          cases fieldOperands tag fields more <;> rfl

def share (found : Operand ⊕ Value) : List Operand × Fields :=
  match found with
  | .inl o => ([o], [])
  | .inr key => ([], [("key", key)])

theorem fieldOperands_key (tag : Value) (fields : Fields) (key : Value) :
    fieldOperands tag (withKey fields key) ["key", "value"] =
      fieldOperand tag "key" key >>= fun found =>
        operands (["value"].filterMap (Table.get? fields)) >>= fun os =>
          .ok ((share found).1 ++ os, (share found).2) := by
  have last : fieldOperands tag (withKey fields key) ["value"] =
      operands (["value"].filterMap (Table.get? fields)) >>= fun os => .ok (os, []) := by
    rw [← List.append_nil ["value"], fieldOperands_append tag _ (by decide) [],
      filterMap_withKey fields key (by decide)]
    simp only [fieldOperands, Except.ok_bind, List.append_nil]
  rw [fieldOperands, get?_withKey_key]
  simp only [last]
  cases fieldOperand tag "key" key with
  | error f => rfl
  | ok found =>
    cases operands (["value"].filterMap (Table.get? fields)) with
    | error f => rfl
    | ok os => cases found <;> rfl

/-- An object is read in three steps: up to its key, the key itself, and what comes after it. -/
theorem instruction_withKey {fields : Fields} {tag : Value} (tagged : Table.get? fields "op" = some tag)
    (key : Value) : instruction (.object (withKey fields key)) =
      beforeKey fields >>= fun before => fieldOperand tag "key" key >>= fun found =>
        afterKey fields >>= fun after =>
          .ok (assembled tag before.1 before.2 after fields (share found)) := by
  have order : operandFields = fieldsBeforeKey ++ ["key", "value"] := rfl
  have keyless : "key" ∉ fieldsBeforeKey := by decide
  have others := otherFields_withKey fields key
  have listed : listField (withKey fields key) "args" = listField fields "args" := by
    rw [listField, read_withKey fields key (by decide), listField]
  have dest : destination (withKey fields key) = destination fields := by
    rw [destination, read_withKey fields key (by decide), destination]
  simp only [otherFields] at others
  simp only [instruction, get?_withKey fields key (show "op" ≠ "key" by decide), tagged, order,
    fieldOperands_append tag (withKey fields key) keyless, fieldOperands_key,
    filterMap_withKey fields key keyless, listed, dest, beforeKey, afterKey, others, assembled,
    otherFields, bind_assoc, Except.ok_bind, List.append_assoc]

theorem operand_notWrongType (v : Value) : Only (fun f => f.kind ≠ .fault .wrongType) (operand v) := by
  have foreseen : ∀ f : Failure, f.Foreseen → f.kind ≠ .fault .wrongType := by
    intro f allowed same
    cases f with
    | refused d => cases same
    | _ => exact allowed
  cases v with
  | object fields => exact objectOperand_only foreseen fields
  | str s =>
    have indexed : ∀ digits, Only (fun f => f.kind ≠ .fault .wrongType) (poolIndex digits) := by
      intro digits
      unfold poolIndex
      split
      · exact only_ok _
      · exact only_error_iff.mpr nofun
    rw [operand, textOperand]
    split
    · split
      · exact only_map_iff.mpr (indexed _)
      · exact only_ok _
    · split
      · exact only_map_iff.mpr (indexed _)
      · exact only_ok _
    · exact only_ok _
  | _ => exact refuse_only foreseen (.inr rfl)

theorem operands_notWrongType (vs : List Value) :
    Only (fun f => f.kind ≠ .fault .wrongType) (operands vs) := by
  induction vs with
  | nil => exact only_ok _
  | cons v rest ih =>
    rw [operands, only_bind_iff]
    refine ⟨operand_notWrongType v, fun o _ => ?_⟩
    exact only_bind_iff.mpr ⟨ih, fun os _ => only_ok _⟩

theorem afterKey_notWrongType (fields : Fields) :
    Only (fun f => f.kind ≠ .fault .wrongType) (afterKey fields) := by
  rw [afterKey, only_bind_iff]
  refine ⟨operands_notWrongType _, fun named _ => only_bind_iff.mpr ⟨?_, fun listed _ => ?_⟩⟩
  · unfold listField
    split
    · exact only_ok _
    · exact only_ok _
    · exact only_error_iff.mpr nofun
  · exact only_bind_iff.mpr ⟨operands_notWrongType _, fun more _ => only_ok _⟩

theorem operands_indexed {vs : List Value} {os : List Operand} (read : operands vs = .ok os) :
    ∀ o ∈ os, Indexed o := by
  rw [operands_eq] at read
  exact indexed_of_forall₂ (g := id) (forall₂_of_mapM read)

theorem indexed_of_beforeKey {fields : Fields} {dest : Option Operand} {before : List Operand}
    (read : beforeKey fields = .ok (dest, before)) : ∀ o ∈ before, Indexed o := by
  simp only [beforeKey, Except.bind_eq_ok] at read
  obtain ⟨d, -, named, found, same⟩ := read
  cases same
  exact operands_indexed found

theorem indexed_of_afterKey {fields : Fields} {after : List Operand}
    (read : afterKey fields = .ok after) : ∀ o ∈ after, Indexed o := by
  simp only [afterKey, Except.bind_eq_ok] at read
  obtain ⟨named, found, listed, -, more, others, same⟩ := read
  cases same
  intro o membership
  rcases List.mem_append.mp membership with first | second
  · exact operands_indexed found o first
  · exact operands_indexed others o second

def ReadsEnvironment (tag : Value) : Prop := tag = .str "getfield_env" ∨ tag = .str "gettabup"

theorem keepsKey_cases (tag : Value) :
    (tag.isScalar = false ∧ keepsKey tag = .error (.fault (.tagNotScalar tag))) ∨
      (ReadsEnvironment tag ∧ keepsKey tag = .ok true) ∨
      (tag.isScalar = true ∧ ¬ ReadsEnvironment tag ∧ keepsKey tag = .ok false) := by
  cases tag with
  | str s =>
    by_cases reads : s = "getfield_env" ∨ s = "gettabup"
    · refine .inr (.inl ⟨?_, by simpa [keepsKey] using reads⟩)
      rcases reads with rfl | rfl
      · exact .inl rfl
      · exact .inr rfl
    · refine .inr (.inr ⟨rfl, ?_, by simpa [keepsKey] using reads⟩)
      rintro (same | same)
      · cases same
        exact reads (.inl rfl)
      · cases same
        exact reads (.inr rfl)
  | list items => exact .inl ⟨rfl, rfl⟩
  | object fields => exact .inl ⟨rfl, rfl⟩
  | _ => exact .inr (.inr ⟨rfl, by simp [ReadsEnvironment], rfl⟩)

theorem ReadsEnvironment.isScalar {tag : Value} (reads : ReadsEnvironment tag) :
    tag.isScalar = true := by
  rcases reads with rfl | rfl <;> rfl

theorem ReadsEnvironment.recipe {i : Instruction} (reads : ReadsEnvironment i.tag) :
    i.recipe = Instruction.settle i.getFieldRecipe := by
  have tagged : i.opcode? = .ok (some .gettabup) := by
    rw [Instruction.opcode?]
    rcases reads with same | same <;> rw [same] <;> rfl
  exact Instruction.recipe_eq tagged

def environmentLine (t e : Token) (key : Value) : Value :=
  .str (Code.text ⟨.gettabup, [t, e, .constant key], []⟩)

theorem toList_environmentLine (t e : Token) (key : Value) :
    (Code.text ⟨.gettabup, [t, e, .constant key], []⟩).toList = ("GETTABUP ".toList ++ t.text.toList) ++
      ' ' :: (e.text.toList ++ ' ' :: 'K' :: key.plain.toList) := by
  have text : (Token.constant key).text = "K" ++ key.plain := rfl
  simp [Code.text, Opcode.mnemonic, text]

theorem environmentLine_inj {t e e' : Token} {key key' : Value} (plain : ' ' ∉ e.text.toList)
    (plain' : ' ' ∉ e'.text.toList) :
    environmentLine t e key = environmentLine t e' key' ↔
      e.text = e'.text ∧ key.plain = key'.plain := by
  constructor
  · intro same
    have texts := congrArg String.toList (Value.str.inj same)
    rw [toList_environmentLine, toList_environmentLine, List.append_cancel_left_eq] at texts
    obtain ⟨tokens, keys⟩ := Text.append_stop_inj plain plain' (List.tail_eq_of_cons_eq texts)
    exact ⟨String.toList_inj.mp tokens, String.toList_inj.mp (List.tail_eq_of_cons_eq keys)⟩
  · rintro ⟨tokens, keys⟩
    apply congrArg Value.str
    apply String.toList_inj.mp
    rw [toList_environmentLine, toList_environmentLine, tokens, keys]

theorem space_notMem_of_indexed {a b : Allocator} {o : Operand} {e : Token} (indexed : Indexed o)
    (resolved : a.resolve o = .ok (e, b)) : ' ' ∉ e.text.toList := by
  have number : ∀ n : Int, ' ' ∉ n.repr.toList := Integer.notMem_repr (by decide) (by decide)
  have numbered : ∀ pool index, o = Pool.entry pool index → ' ' ∉ index.plain.toList := by
    intro pool index same
    obtain ⟨n, rfl⟩ := indexed pool index same
    exact number n
  cases o with
  | register name =>
    rw [Allocator.resolve] at resolved
    split at resolved
    · cases resolved
      rename_i slot _
      simpa [Token.text] using number slot
    · cases resolved
  | constant index =>
    cases resolved
    simpa [Token.text] using numbered .constants index rfl
  | upvalue index =>
    cases resolved
    simpa [Token.text] using numbered .upvalues index rfl
  | other v => cases resolved

/-- Only the constant itself has its text. -/
theorem eq_constant_of_text {a b : Allocator} {o : Operand} {e : Token} {k : Nat} (indexed : Indexed o)
    (resolved : a.resolve o = .ok (e, b)) (same : e.text = "K" ++ k.repr) :
    o = .constant (.int k) := by
  have first := congrArg (fun s : String => s.toList.head?) same
  cases o with
  | register name =>
    rw [Allocator.resolve] at resolved
    split at resolved
    · cases resolved
      simp [Token.text] at first
    · cases resolved
  | constant index =>
    obtain ⟨n, rfl⟩ := indexed .constants index rfl
    cases resolved
    have digits : (n : Int).repr = (k : Int).repr := (String.append_right_inj "K").mp same
    rw [Integer.repr_injective digits]
  | upvalue index =>
    cases resolved
    simp [Token.text] at first
  | other v => cases resolved

/-- The key that is shown if the newer field is not there. -/
def olderKey (fields : Fields) : Value := (Table.get? fields "key_c").getD (.int 0)

theorem get?_otherFields (fields : Fields) (name : String) :
    Table.get? (otherFields fields) name =
      if ownFields.contains name then none else Table.get? fields name := by
  induction fields with
  | nil => simp [otherFields, Table.get?]
  | cons e rest ih =>
    rw [otherFields] at ih ⊢
    rw [List.filter_cons]
    by_cases same : e.1 = name
    · cases own : ownFields.contains name with
      | true =>
        simp only [own, if_true] at ih
        simp only [same, own, if_true]
        exact ih
      | false =>
        simp only [same, own]
        exact (if_pos same).trans (if_pos same).symm
    · have skipped : Table.get? (e :: rest) name = Table.get? rest name := if_neg same
      rw [skipped, ← ih]
      split
      · exact if_neg same
      · rfl

section Lowered

variable (c : Context) {tag : Value} {before after : List Operand} {fields : Fields}

theorem written_without_destination (reads : ReadsEnvironment tag) (key : List Operand × Fields) :
    c.written (assembled tag none before after fields key) =
      .error (.ofComplaint (.destinationMissing tag)) := by
  apply c.written_of_abort
  rw [ReadsEnvironment.recipe reads]
  rfl

theorem written_with_destination (reads : ReadsEnvironment tag) (d : Operand)
    (key : List Operand × Fields) :
    c.written (assembled tag (some d) before after fields key) =
      c.allocator.resolve d >>= fun placed =>
        placed.2.resolve ((before ++ key.1 ++ after).headD (.upvalue (.int 0))) >>= fun found =>
          .ok [environmentLine placed.1 found.1
            (Instruction.fieldOr (key.2 ++ otherFields fields) "key" "key_c" (.int 0))] := by
  have made : (assembled tag (some d) before after fields key).recipe = .line .gettabup
      [d, (before ++ key.1 ++ after).headD (.upvalue (.int 0)),
        .constant (Instruction.fieldOr (key.2 ++ otherFields fields) "key" "key_c" (.int 0))] [] := by
    rw [ReadsEnvironment.recipe reads]
    rfl
  rw [c.written_of_line made, Allocator.resolveAll]
  cases c.allocator.resolve d with
  | error f => rfl
  | ok placed =>
    simp only [Allocator.resolveAll, Except.ok_bind]
    cases placed.2.resolve ((before ++ key.1 ++ after).headD (.upvalue (.int 0))) <;> rfl

theorem shown_kept (fields : Fields) (key : Value) :
    Instruction.fieldOr ([("key", key)] ++ otherFields fields) "key" "key_c" (.int 0) = key := rfl

theorem shown_older (fields : Fields) :
    Instruction.fieldOr ([] ++ otherFields fields) "key" "key_c" (.int 0) = olderKey fields := by
  have newer : Table.get? (otherFields fields) "key" = none := get?_otherFields fields "key"
  have older : Table.get? (otherFields fields) "key_c" = Table.get? fields "key_c" :=
    get?_otherFields fields "key_c"
  rw [List.nil_append, Instruction.fieldOr, newer, older, olderKey]

/-- With the operands before and after the key, a reference in place of the number changes the line: it
stands for the environment, or another key is shown. -/
def Displaces (a : Allocator) (fields : Fields) (k : Nat) (before after : List Operand) : Prop :=
  (∀ o ∈ before.head?, ∃ found, a.resolve o = .ok found) ∧
    ((olderKey fields).plain = k.repr → before = [] ∧ after.head? ≠ some (.constant (.int k)))

section Placed

variable (reads : ReadsEnvironment tag) {d : Operand} {t : Token} {a : Allocator}
  (placed : c.allocator.resolve d = .ok (t, a)) (k : Nat)

include reads placed

/-- An operand before the key is the environment with either spelling, so only the keys can differ. -/
theorem sameOutcome_of_front {o : Operand} (indexed : Indexed o) (rest after : List Operand) :
    SameOutcome (c.written (assembled tag (some d) (o :: rest) after fields ([], [("key", .int k)])))
        (c.written (assembled tag (some d) (o :: rest) after fields ([.constant (.int k)], []))) ↔
      ((∃ found, a.resolve o = .ok found) → (olderKey fields).plain = k.repr) := by
  have number : (Value.int k).plain = k.repr := rfl
  simp only [written_with_destination c reads, placed, Except.ok_bind, shown_kept, shown_older]
  simp only [List.cons_append, List.headD_cons]
  cases found : a.resolve o with
  | error f => exact iff_of_true (.refl _) (by simp)
  | ok p =>
    have plain := space_notMem_of_indexed indexed found
    simp only [Except.ok_bind, SameOutcome.ok_iff, List.cons.injEq, and_true,
      environmentLine_inj plain plain, true_and, number]
    exact ⟨fun same _ => same.symm, fun agrees => (agrees ⟨p, rfl⟩).symm⟩

/-- With nothing before the key a reference is itself the environment. -/
theorem sameOutcome_of_no_front (back : ∀ o ∈ after, Indexed o) :
    SameOutcome (c.written (assembled tag (some d) [] after fields ([], [("key", .int k)])))
        (c.written (assembled tag (some d) [] after fields ([.constant (.int k)], []))) ↔
      (olderKey fields).plain = k.repr ∧ after.head? = some (.constant (.int k)) := by
  have number : (Value.int k).plain = k.repr := rfl
  have reference : a.resolve (.constant (.int k)) = .ok (.constant (.int k), a) := rfl
  have indexed : Indexed (after.headD (.upvalue (.int 0))) := by
    cases after with
    | nil => exact (indexed_entry_iff .upvalues _).mpr ⟨0, rfl⟩
    | cons o rest => exact back o (by simp)
  simp only [written_with_destination c reads, placed, Except.ok_bind, shown_kept, shown_older]
  simp only [List.nil_append, List.cons_append, List.headD_cons, reference, Except.ok_bind]
  cases found : a.resolve (after.headD (.upvalue (.int 0))) with
  | error f =>
    refine iff_of_false nofun fun agrees => ?_
    rw [List.headD_eq_head?_getD, agrees.2] at found
    cases found
  | ok p =>
    have plain := space_notMem_of_indexed indexed found
    have plain' := space_notMem_of_indexed ((indexed_entry_iff .constants _).mpr ⟨k, rfl⟩) reference
    simp only [Except.ok_bind, SameOutcome.ok_iff, List.cons.injEq, and_true,
      environmentLine_inj plain plain', number]
    constructor
    · rintro ⟨environments, keys⟩
      refine ⟨keys.symm, ?_⟩
      have constant := eq_constant_of_text indexed found environments
      cases after with
      | nil => cases constant
      | cons o rest => exact congrArg some constant
    · rintro ⟨keys, first⟩
      rw [List.headD_eq_head?_getD, first] at found
      cases found
      exact ⟨rfl, keys.symm⟩

theorem sameOutcome_iff_not_displaces (front : ∀ o ∈ before, Indexed o) (back : ∀ o ∈ after, Indexed o) :
    SameOutcome (c.written (assembled tag (some d) before after fields ([], [("key", .int k)])))
        (c.written (assembled tag (some d) before after fields ([.constant (.int k)], []))) ↔
      ¬ Displaces a fields k before after := by
  cases before with
  | cons o rest =>
    rw [sameOutcome_of_front c reads placed k (front o (by simp))]
    simp [Displaces]
  | nil =>
    rw [sameOutcome_of_no_front c reads placed k back]
    simp [Displaces]

end Placed

end Lowered

theorem fieldOperand_reference (tag : Value) {k : Nat} (short : k.repr.length ≤ Integer.maxDigits) :
    fieldOperand tag "key" (.str ("K" ++ k.repr)) = .ok (.inl (.constant (.int k))) := by
  have read : operand (.str ("K" ++ k.repr)) = .ok (.constant (.int k)) :=
    (Spells.entry .constants short).operand
  rw [fieldOperand, read]
  rfl

theorem written_withKey (c : Context) {fields : Fields} {tag : Value}
    (tagged : Table.get? fields "op" = some tag) (key : Value) :
    written c (.object (withKey fields key)) =
      beforeKey fields >>= fun before => fieldOperand tag "key" key >>= fun found =>
        afterKey fields >>= fun after =>
          c.written (assembled tag before.1 before.2 after fields (share found)) := by
  rw [written, instruction_withKey tagged]
  simp only [bind_assoc, Except.ok_bind]

/-- Where the two spellings of the key `k` lead to different lines or to failures of different classes. -/
inductive Diverges (c : Context) (fields : Fields) (k : Nat) : Prop
  /-- A tag that cannot be looked up stops the reading at a number, but with a reference only what
  follows does so. -/
  | tag {tag : Value} {before : Option Operand × List Operand} {f : Failure}
      (tagged : Table.get? fields "op" = some tag) (opaqueTag : tag.isScalar = false)
      (read : beforeKey fields = .ok before) (unread : afterKey fields = .error f)
  /-- A tag for the environment keeps a number as the key and takes a reference for an operand. -/
  | environment {tag : Value} {d : Operand} {before after : List Operand} {t : Token} {a : Allocator}
      (tagged : Table.get? fields "op" = some tag) (reads : ReadsEnvironment tag)
      (read : beforeKey fields = .ok (some d, before)) (rest : afterKey fields = .ok after)
      (placed : c.allocator.resolve d = .ok (t, a))
      (displaces : Displaces a fields k before after)

theorem written_untagged (c : Context) {fields : Fields} (untagged : Table.get? fields "op" = none)
    (key : Value) : written c (.object (withKey fields key)) =
      .error (.ofComplaint (.notAnInstruction (.object (withKey fields key)))) := by
  have missing : Table.get? (withKey fields key) "op" = none := by
    rw [get?_withKey fields key (by decide), untagged]
  simp only [written, instruction, missing]
  rfl

section Tagged

variable (c : Context) {fields : Fields} {tag : Value} {k : Nat}

/-- The tag of an object decides how the spellings can diverge. -/
theorem diverges_iff (tagged : Table.get? fields "op" = some tag) {dest : Option Operand}
    {before : List Operand} (read : beforeKey fields = .ok (dest, before)) :
    Diverges c fields k ↔
      (tag.isScalar = false ∧ ∃ f, afterKey fields = .error f) ∨
      (ReadsEnvironment tag ∧ ∃ d after t a, dest = some d ∧ afterKey fields = .ok after ∧
        c.allocator.resolve d = .ok (t, a) ∧ Displaces a fields k before after) := by
  constructor
  · intro diverges
    cases diverges with
    | tag tagged' opaqueTag read' unread =>
      cases tagged.symm.trans tagged'
      exact .inl ⟨opaqueTag, _, unread⟩
    | environment tagged' reads read' rest placed displaces =>
      cases tagged.symm.trans tagged'
      cases read.symm.trans read'
      exact .inr ⟨reads, _, _, _, _, rfl, rest, placed, displaces⟩
  · rintro (⟨opaqueTag, f, unread⟩ | ⟨reads, d, after, t, a, rfl, rest, placed, displaces⟩)
    · exact .tag tagged opaqueTag read unread
    · exact .environment tagged reads read rest placed displaces

variable (tagged : Table.get? fields "op" = some tag) {dest : Option Operand} {before : List Operand}
  (read : beforeKey fields = .ok (dest, before))

include tagged read

/-- With a number the tag is looked up, and then what follows the key is read. -/
theorem written_number : written c (.object (withKey fields (.int k))) =
    keepsKey tag >>= fun kept => afterKey fields >>= fun after =>
      c.written (assembled tag dest before after fields
        (if kept then ([], [("key", .int k)]) else ([.constant (.int k)], []))) := by
  have number : fieldOperand tag "key" (.int k) =
      (keepsKey tag).map fun kept => if kept then .inr (.int k) else .inl (.constant (.int k)) := rfl
  rw [written_withKey c tagged, read, Except.ok_bind, number]
  cases keepsKey tag with
  | error f => rfl
  | ok kept => cases kept <;> rfl

theorem written_reference (short : k.repr.length ≤ Integer.maxDigits) :
    written c (.object (withKey fields (.str ("K" ++ k.repr)))) =
      afterKey fields >>= fun after =>
        c.written (assembled tag dest before after fields ([.constant (.int k)], [])) := by
  rw [written_withKey c tagged, read, Except.ok_bind, fieldOperand_reference tag short]
  rfl

variable (short : k.repr.length ≤ Integer.maxDigits)

include short

theorem agree_iff_of_not_isScalar (opaqueTag : tag.isScalar = false)
    (stuck : keepsKey tag = .error (.fault (.tagNotScalar tag))) :
    SameOutcome (written c (.object (withKey fields (.int k))))
        (written c (.object (withKey fields (.str ("K" ++ k.repr))))) ↔
      ∃ after, afterKey fields = .ok after := by
  rw [written_number c tagged read, written_reference c tagged read short, stuck]
  cases rest : afterKey fields with
  | error f =>
    refine iff_of_false (fun agree => ?_) nofun
    exact afterKey_notWrongType fields f rest (SameOutcome.error_iff.mp agree).symm
  | ok after =>
    have faulty : c.written (assembled tag dest before after fields ([.constant (.int k)], [])) =
        .error (.fault (.tagNotScalar tag)) := by
      apply c.written_of_abort
      apply Instruction.recipe_of_fault
      cases tag with
      | list items => rfl
      | object fields => rfl
      | _ => cases opaqueTag
    rw [Except.ok_bind, faulty]
    exact iff_of_true (.refl _) ⟨after, rfl⟩

theorem agree_of_other (other : keepsKey tag = .ok false) :
    SameOutcome (written c (.object (withKey fields (.int k))))
      (written c (.object (withKey fields (.str ("K" ++ k.repr))))) := by
  rw [written_number c tagged read, written_reference c tagged read short, other]
  exact .refl _

theorem agree_iff_of_readsEnvironment (reads : ReadsEnvironment tag)
    (keeps : keepsKey tag = .ok true) :
    SameOutcome (written c (.object (withKey fields (.int k))))
        (written c (.object (withKey fields (.str ("K" ++ k.repr))))) ↔
      ¬ ∃ d after t a, dest = some d ∧ afterKey fields = .ok after ∧
        c.allocator.resolve d = .ok (t, a) ∧ Displaces a fields k before after := by
  rw [written_number c tagged read, written_reference c tagged read short, keeps]
  cases rest : afterKey fields with
  | error f => exact iff_of_true (.refl _) (by simp)
  | ok after =>
    simp only [Except.ok_bind, if_true]
    cases dest with
    | none =>
      rw [written_without_destination c reads, written_without_destination c reads]
      exact iff_of_true (.refl _) (by simp)
    | some d =>
      cases placed : c.allocator.resolve d with
      | error f =>
        simp only [written_with_destination c reads, placed]
        exact iff_of_true (.refl _) (by simp [placed])
      | ok found =>
        obtain ⟨t, a⟩ := found
        rw [sameOutcome_iff_not_displaces c reads placed k (indexed_of_beforeKey read)
          (indexed_of_afterKey rest)]
        apply not_congr
        simp [placed]

end Tagged

/-- A natural number and the reference to its constant as keys of an instruction object: from every
context both are lowered to the same lines or fail in the same class, unless they diverge. -/
theorem key_spellings_agree_iff (c : Context) (fields : Fields) {k : Nat}
    (short : k.repr.length ≤ Integer.maxDigits) :
    SameOutcome (written c (.object (withKey fields (.int k))))
      (written c (.object (withKey fields (.str ("K" ++ k.repr))))) ↔ ¬ Diverges c fields k := by
  cases tagged : Table.get? fields "op" with
  | none =>
    rw [written_untagged c tagged, written_untagged c tagged]
    refine iff_of_true (.error rfl) fun diverges => ?_
    cases diverges <;> simp_all
  | some tag =>
    cases read : beforeKey fields with
    | error f =>
      rw [written_withKey c tagged, written_withKey c tagged, read]
      refine iff_of_true (.refl _) fun diverges => ?_
      cases diverges <;> simp_all
    | ok found =>
      obtain ⟨dest, before⟩ := found
      rw [diverges_iff c tagged read]
      rcases keepsKey_cases tag with ⟨opaqueTag, stuck⟩ | ⟨reads, keeps⟩ | ⟨scalar, other, keeps⟩
      · rw [agree_iff_of_not_isScalar c tagged read short opaqueTag stuck]
        have foreign : ¬ ReadsEnvironment tag := fun reads => by simp [reads.isScalar] at opaqueTag
        cases rest : afterKey fields <;> simp [opaqueTag, foreign]
      · rw [agree_iff_of_readsEnvironment c tagged read short reads keeps]
        simp [reads, reads.isScalar]
      · apply iff_of_true (agree_of_other c tagged read short keeps)
        simp [scalar, other]

/-- A field of the environment is read, and nothing is said about which environment. -/
def fetching : Fields := [("op", .str "getfield_env"), ("dst", .str "p")]

def fetchingFrom : Fields := fetching ++ [("upval", .str "U1"), ("key_c", .int 2)]

theorem key_spellings_of_fetchingFrom :
    (Nat.repr 2).length ≤ Integer.maxDigits ∧
      written Context.fresh (.object (withKey fetchingFrom (.int 2))) =
        .ok [.str "GETTABUP R0 U1 K2"] ∧
      written Context.fresh (.object (withKey fetchingFrom (.str ("K" ++ Nat.repr 2)))) =
        .ok [.str "GETTABUP R0 U1 K2"] ∧
      ¬ Diverges Context.fresh fetchingFrom 2 := by
  have short : (Nat.repr 2).length ≤ Integer.maxDigits := by decide
  have number : written Context.fresh (.object (withKey fetchingFrom (.int 2))) =
      .ok [.str "GETTABUP R0 U1 K2"] := rfl
  have reference : written Context.fresh (.object (withKey fetchingFrom (.str ("K" ++ Nat.repr 2)))) =
      .ok [.str "GETTABUP R0 U1 K2"] := rfl
  have agree : SameOutcome (written Context.fresh (.object (withKey fetchingFrom (.int 2))))
      (written Context.fresh (.object (withKey fetchingFrom (.str ("K" ++ Nat.repr 2))))) := by
    rw [number, reference]
    exact .refl _
  exact ⟨short, number, reference, (key_spellings_agree_iff _ _ short).mp agree⟩

/-- The reference stands in for the environment, and another key is shown. -/
theorem fetching_diverges :
    written Context.fresh (.object (withKey fetching (.int 2))) = .ok [.str "GETTABUP R0 U0 K2"] ∧
      written Context.fresh (.object (withKey fetching (.str "K2"))) =
        .ok [.str "GETTABUP R0 K2 K0"] ∧
      ¬ SameOutcome (written Context.fresh (.object (withKey fetching (.int 2))))
        (written Context.fresh (.object (withKey fetching (.str "K2")))) ∧
      Diverges Context.fresh fetching 2 := by
  have number : written Context.fresh (.object (withKey fetching (.int 2))) =
      .ok [.str "GETTABUP R0 U0 K2"] := rfl
  have reference : written Context.fresh (.object (withKey fetching (.str "K2"))) =
      .ok [.str "GETTABUP R0 K2 K0"] := rfl
  have older : (olderKey fetching).plain ≠ Nat.repr 2 := by decide
  refine ⟨number, reference, ?_, .environment rfl (.inl rfl) rfl rfl rfl ⟨nofun, (absurd · older)⟩⟩
  rw [number, reference, SameOutcome.ok_iff]
  simp

end Document

end BlockAsm
