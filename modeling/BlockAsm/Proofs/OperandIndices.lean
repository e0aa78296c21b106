import BlockAsm.Proofs.InstructionFields
import BlockAsm.Proofs.OperandForms

/-!
The indices of constants and upvalues in a function that was read from a document. A text and an object
operand give a natural number. A key that is integral by itself is taken as it stands, a negative number
or a truth value too, and in every accepted document these keys are the only source of an index that is
not a natural number.
-/

namespace BlockAsm

def Instruction.operands (i : Instruction) : List Operand := i.dest.toList ++ i.args

def Item.operands : Item → List Operand
  | .instruction i => i.operands
  | .other _ => []

def Function.operands (f : Function) : List Operand :=
  f.blocks.flatMap fun b => b.items.flatMap Item.operands

namespace Document

/-- An operand with a natural number for its index, if it has an index at all. -/
def Indexed (o : Operand) : Prop := ∀ pool index, o = Pool.entry pool index → ∃ n : Nat, index = .int n

theorem indexed_register (name : Value) : Indexed (.register name) := by
  intro pool index same
  cases pool <;> cases same

theorem indexed_entry_iff (pool : Pool) (index : Value) :
    Indexed (pool.entry index) ↔ ∃ n : Nat, index = .int n := by
  constructor
  · intro indexed
    exact indexed pool index rfl
  · intro natural other index' same
    have equal : index = index' := by
      cases pool <;> cases other <;> cases same <;> rfl
    exact equal ▸ natural

theorem exists_mem_iff_of_forall₂ {α β : Type} {R : α → β → Prop} {P : α → Prop} {Q : β → Prop}
    {xs : List α} {ys : List β} (paired : List.Forall₂ R xs ys) (agree : ∀ x y, R x y → (Q y ↔ P x)) :
    (∃ y ∈ ys, Q y) ↔ ∃ x ∈ xs, P x := by
  induction paired with
  | nil => simp
  | cons first _ ih => rw [List.exists_mem_cons_iff, List.exists_mem_cons_iff, agree _ _ first, ih]

theorem textOperand_indexed {s : String} {o : Operand} (read : textOperand s = .ok o) : Indexed o := by
  by_cases lettered : ∃ pool rest, s.toList = Pool.letter pool :: rest
  · obtain ⟨pool, rest, shape⟩ := lettered
    rw [textOperand_of_letter shape] at read
    cases found : poolDigits? rest with
    | none =>
      rw [found] at read
      cases read
      exact indexed_register _
    | some digits =>
      simp only [found, poolIndex] at read
      split at read
      · cases read
        exact (indexed_entry_iff pool _).mpr ⟨_, rfl⟩
      · cases read
  · have other : ∀ pool n, ¬ Refers pool s n := by
      rintro pool n ⟨digits, -, -, shape | shape⟩
      · exact lettered ⟨pool, digits, shape⟩
      · exact lettered ⟨pool, digits ++ ['\n'], shape⟩
    rw [textOperand_of_not_refers other] at read
    cases read
    unfold registerNamed
    split <;> exact indexed_register _

theorem operandIndex_nonneg {fields : Fields} {n : Int} (read : operandIndex fields = .ok n) : 0 ≤ n := by
  unfold operandIndex at read
  split at read
  · cases read
  · simp only at read
    split at read
    · cases read
    · split at read
      · cases read
      · cases read
        omega

theorem indexed_of_operandIndex (pool : Pool) {fields : Fields} {o : Operand}
    (read : (operandIndex fields).map (fun n => pool.entry (.int n)) = .ok o) : Indexed o := by
  cases found : operandIndex fields with
  | error f =>
    rw [found] at read
    cases read
  | ok n =>
    rw [found] at read
    cases read
    apply (indexed_entry_iff pool _).mpr
    exact ⟨n.toNat, by rw [Int.toNat_of_nonneg (operandIndex_nonneg found)]⟩

theorem objectOperand_indexed {fields : Fields} {o : Operand} (read : objectOperand fields = .ok o) :
    Indexed o := by
  unfold objectOperand at read
  split at read
  · split at read
    · cases found : operandIndex fields with
      | error f =>
        rw [found] at read
        cases read
      | ok n =>
        rw [found] at read
        cases read
        exact indexed_register _
    · cases read
      exact indexed_register _
  · exact indexed_of_operandIndex .constants read
  · exact indexed_of_operandIndex .upvalues read
  · cases read

theorem operand_indexed {v : Value} {o : Operand} (read : operand v = .ok o) : Indexed o := by
  cases v with
  | object fields => exact objectOperand_indexed read
  | str s => exact textOperand_indexed read
  | _ => cases read

theorem indexed_of_forall₂ {α : Type} {g : α → Value} {xs : List α} {os : List Operand}
    (read : List.Forall₂ (fun x o => operand (g x) = .ok o) xs os) : ∀ o ∈ os, Indexed o := by
  induction read with
  | nil => simp
  | cons first _ ih => exact List.forall_mem_cons.mpr ⟨operand_indexed first, ih⟩

/-- An integral value that is no natural number. -/
inductive Stray : Value → Prop
  | truth (b : Bool) : Stray (.bool b)
  | negative {n : Int} : n < 0 → Stray (.int n)

theorem stray_iff {v : Value} :
    Stray v ↔ isIntegral v = true ∧ ¬ ∃ n : Nat, v = .int n := by
  constructor
  · rintro (b | negative)
    · exact ⟨rfl, fun ⟨n, same⟩ => nomatch same⟩
    · refine ⟨rfl, ?_⟩
      rintro ⟨n, same⟩
      cases same
      omega
  · rintro ⟨integral, unnatural⟩
    cases v with
    | bool b => exact .truth b
    | int n =>
      apply Stray.negative
      by_contra nonneg
      apply unnatural
      exact ⟨n.toNat, by rw [Int.toNat_of_nonneg (by omega)]⟩
    | _ => cases integral

/-- An instruction object with a stray key, its tag not being one that keeps the key as metadata. -/
def StrayKey (v key : Value) : Prop :=
  ∃ fields, v = .object fields ∧ Table.get? fields "key" = some key ∧ Stray key ∧
    ∀ tag, Table.get? fields "op" = some tag → tag ≠ .str "getfield_env" ∧ tag ≠ .str "gettabup"

theorem isKept_key {tag key : Value} (integral : isIntegral key = true) :
    isKept tag ("key", key) = false ↔ tag ≠ .str "getfield_env" ∧ tag ≠ .str "gettabup" := by
  have text : ∀ s, tag.isText s = true ↔ tag = .str s := by
    intro s
    cases tag <;> simp [Value.isText, @eq_comm String s]
  rw [isKept, integral, ← Bool.not_eq_true]
  simp [text]

/-- What a field gives has natural numbers for its indices, unless the field is a stray key. -/
theorem Gives.stray_iff {e : String × Value} {os : List Operand} (gives : Gives e os) (o : Operand) :
    (o ∈ os ∧ ¬ Indexed o) ↔ e.1 = "key" ∧ Stray e.2 ∧ o = .constant e.2 := by
  cases gives with
  | single _ unkeyed read =>
    constructor
    · rintro ⟨member, unindexed⟩
      rw [List.mem_singleton.mp member] at unindexed
      exact absurd (operand_indexed read) unindexed
    · rintro ⟨key, stray, -⟩
      have integral := (Document.stray_iff.mp stray).1
      rw [unkeyed key] at integral
      cases integral
  | @key v integral =>
    rw [Document.stray_iff, List.mem_singleton, and_iff_right integral, and_iff_right rfl, and_comm]
    apply and_congr_left
    rintro rfl
    exact not_congr (indexed_entry_iff .constants v)
  | list read =>
    constructor
    · rintro ⟨member, unindexed⟩
      exact absurd (indexed_of_forall₂ read o member) unindexed
    · rintro ⟨key, -⟩
      have other : "args" ≠ "key" := by decide
      exact absurd key other

def listed (v : Value) (name : String) : List Value :=
  match v with
  | .object fields =>
    match Fields.read fields name with
    | .list items => items
    | _ => []
  | _ => []

/-- The instruction objects of a document, block by block. -/
def instructionsOf (v : Value) : List Value :=
  (listed v "blocks").flatMap fun b => listed b "instrs"

theorem listed_of_listField {fields : Fields} {name : String} {items : List Value}
    (found : listField fields name = .ok items) : listed (.object fields) name = items := by
  unfold listField at found
  unfold listed
  split at found
  · rename_i null
    cases found
    simp only [null]
  · rename_i list
    cases found
    simp only [list]
  · cases found

theorem mem_entries_key_iff {fields : Fields} {tag key : Value}
    (tagged : Table.get? fields "op" = some tag) (stray : Stray key) :
    ("key", key) ∈ Part.operands.entries tag fields ↔ StrayKey (.object fields) key := by
  have named : "key" ∈ operandOrder := by decide
  simp only [Part.entries, List.mem_filter, mem_select, and_iff_right named]
  constructor
  · rintro ⟨found, free⟩
    refine ⟨fields, rfl, found, stray, ?_⟩
    intro other same
    rw [tagged] at same
    cases same
    apply (isKept_key (stray_iff.mp stray).1).mp
    simpa using free
  · rintro ⟨_, ⟨⟩, found, -, untold⟩
    have free := (isKept_key (stray_iff.mp stray).1).mpr (untold tag tagged)
    exact ⟨found, by simp [free]⟩

theorem instruction_stray_iff {v : Value} {i : Instruction} (accepted : instruction v = .ok i)
    (o : Operand) : (o ∈ i.operands ∧ ¬ Indexed o) ↔ ∃ key, StrayKey v key ∧ o = .constant key := by
  cases v with
  | object fields =>
    obtain ⟨tagged, dest, ⟨shares, given, flat⟩, -⟩ := instruction_accounts accepted
    calc (o ∈ i.operands ∧ ¬ Indexed o)
        ↔ o ∈ i.args ∧ ¬ Indexed o := by
          rw [Instruction.operands, List.mem_append]
          constructor
          · rintro ⟨target | member, unindexed⟩
            · exact absurd (indexed_of_forall₂ dest o target) unindexed
            · exact ⟨member, unindexed⟩
          · rintro ⟨member, unindexed⟩
            exact ⟨.inr member, unindexed⟩
      _ ↔ ∃ share ∈ shares, o ∈ share ∧ ¬ Indexed o := by
          rw [flat, List.mem_flatten]
          constructor
          · rintro ⟨⟨share, listed, member⟩, unindexed⟩
            exact ⟨share, listed, member, unindexed⟩
          · rintro ⟨share, listed, member, unindexed⟩
            exact ⟨⟨share, listed, member⟩, unindexed⟩
      _ ↔ ∃ e ∈ Part.operands.entries i.tag fields, e.1 = "key" ∧ Stray e.2 ∧ o = .constant e.2 :=
          exists_mem_iff_of_forall₂ given fun _ _ gives => gives.stray_iff o
      _ ↔ ∃ key, StrayKey (.object fields) key ∧ o = .constant key := by
          constructor
          · rintro ⟨⟨_, key⟩, member, rfl, stray, same⟩
            exact ⟨key, (mem_entries_key_iff tagged stray).mp member, same⟩
          · rintro ⟨key, held, same⟩
            obtain ⟨_, -, -, stray, -⟩ := id held
            exact ⟨("key", key), (mem_entries_key_iff tagged stray).mpr held, rfl, stray, same⟩
  | _ => cases accepted

theorem block_stray_iff {v : Value} {b : Block} (accepted : block v = .ok b) (o : Operand) :
    (∃ item ∈ b.items, o ∈ item.operands ∧ ¬ Indexed o) ↔
      ∃ i ∈ listed v "instrs", ∃ key, StrayKey i key ∧ o = .constant key := by
  cases v with
  | object fields =>
    simp only [block] at accepted
    split at accepted
    · simp only [instructions_eq, Except.bind_eq_ok] at accepted
      obtain ⟨vs, found, items, read, made⟩ := accepted
      cases decoded : vs.mapM instruction with
      | error f =>
        rw [decoded] at read
        cases read
      | ok is =>
        rw [decoded] at read
        cases read
        cases made
        rw [listed_of_listField found, ← exists_mem_iff_of_forall₂ (forall₂_of_mapM decoded)
          fun _ _ accepted => instruction_stray_iff accepted o]
        simp [Item.operands]
    · cases accepted
  | _ => cases accepted

theorem function_stray_iff {v : Value} {f : Function} (accepted : function v = .ok f) (o : Operand) :
    (o ∈ f.operands ∧ ¬ Indexed o) ↔
      ∃ i ∈ instructionsOf v, ∃ key, StrayKey i key ∧ o = .constant key := by
  cases v with
  | object fields =>
    simp only [function, blocks_eq, Except.bind_eq_ok] at accepted
    obtain ⟨vs, found, blocks, read, header, -, declared, -, upvalues, -, consts, -, locals, -, made⟩ :=
      accepted
    cases made
    have strays := exists_mem_iff_of_forall₂ (forall₂_of_mapM read)
      fun _ _ accepted => block_stray_iff accepted o
    simp only [Function.operands, instructionsOf, listed_of_listField found, List.mem_flatMap]
    constructor
    · rintro ⟨⟨b, blocked, item, placed, member⟩, unindexed⟩
      obtain ⟨w, among, i, within, stray⟩ := strays.mp ⟨b, blocked, item, placed, member, unindexed⟩
      exact ⟨i, ⟨w, among, within⟩, stray⟩
    · rintro ⟨i, ⟨w, among, within⟩, stray⟩
      obtain ⟨b, blocked, item, placed, member, unindexed⟩ := strays.mpr ⟨w, among, i, within, stray⟩
      exact ⟨⟨b, blocked, item, placed, member⟩, unindexed⟩
  | _ => cases accepted

def Decimal (pool : Pool) (t : Token) : Prop :=
  ∃ digits, digits ≠ [] ∧ (∀ c ∈ digits, c.isDigit = true) ∧ t.text.toList = pool.letter :: digits

theorem resolve_entry (a : Allocator) (pool : Pool) (index : Value) :
    ∃ t, a.resolve (pool.entry index) = .ok (t, a) ∧
      t.text.toList = pool.letter :: index.plain.toList := by
  cases pool with
  | constants => exact ⟨.constant index, rfl, String.toList_append⟩
  | upvalues => exact ⟨.upvalue index, rfl, String.toList_append⟩

theorem plain_natural (n : Nat) : (Value.int n).plain.toList = Nat.toDigits 10 n := Nat.toList_repr

theorem exists_nondigit_of_stray {key : Value} (stray : Stray key) :
    ∃ c ∈ key.plain.toList, c.isDigit = false := by
  cases stray with
  | truth b =>
    cases b with
    | true => exact ⟨'T', by simp [Value.plain, Value.literal], rfl⟩
    | false => exact ⟨'F', by simp [Value.plain, Value.literal], rfl⟩
  | @negative n below =>
    obtain ⟨m, rfl⟩ := Int.eq_negSucc_of_lt_zero below
    have signed : (Value.int (Int.negSucc m)).plain.toList = '-' :: (m + 1).repr.toList := by
      change (Int.negSucc m).repr.toList = _
      simp [Int.repr]
    refine ⟨'-', ?_, rfl⟩
    rw [signed]
    exact List.mem_cons_self

/-- A document that is accepted gives natural numbers for all indices of constants and upvalues exactly if
no instruction has a stray key; each stray key is the index of a constant, and no other index is stray.
A token of the pools is a letter and decimal digits exactly if its index is a natural number. -/
theorem function_indexed_iff {v : Value} {f : Function} (accepted : function v = .ok f) :
    ((∀ o ∈ f.operands, Indexed o) ↔ ¬ ∃ i ∈ instructionsOf v, ∃ key, StrayKey i key) ∧
    (∀ o, (o ∈ f.operands ∧ ¬ Indexed o) ↔
      ∃ i ∈ instructionsOf v, ∃ key, StrayKey i key ∧ o = .constant key) ∧
    ∀ pool index, Pool.entry pool index ∈ f.operands → ∀ a : Allocator,
      ∃ t, a.resolve (pool.entry index) = .ok (t, a) ∧
        (Indexed (pool.entry index) ↔ Decimal pool t) := by
  have strays := function_stray_iff accepted
  refine ⟨⟨?_, ?_⟩, strays, ?_⟩
  · rintro indexed ⟨i, listed, key, stray⟩
    obtain ⟨member, unindexed⟩ := (strays _).mpr ⟨i, listed, key, stray, rfl⟩
    exact unindexed (indexed _ member)
  · intro none o member
    by_contra unindexed
    obtain ⟨i, listed, key, stray, -⟩ := (strays o).mp ⟨member, unindexed⟩
    exact none ⟨i, listed, key, stray⟩
  · intro pool index member a
    obtain ⟨t, resolved, text⟩ := resolve_entry a pool index
    refine ⟨t, resolved, ?_, ?_⟩
    · intro indexed
      obtain ⟨n, rfl⟩ := (indexed_entry_iff pool index).mp indexed
      refine ⟨Nat.toDigits 10 n, Nat.toDigits_ne_nil, ?_, ?_⟩
      · intro c digit
        exact Nat.isDigit_of_mem_toDigits (by decide) (by decide) digit
      · rw [text, plain_natural]
    · rintro ⟨digits, -, each, spelled⟩
      by_contra unindexed
      obtain ⟨i, -, key, ⟨_, -, -, stray, -⟩, same⟩ := (strays _).mp ⟨member, unindexed⟩
      have keyed : index = key := by
        cases pool <;> cases same
        rfl
      obtain ⟨c, among, other⟩ := exists_nondigit_of_stray stray
      rw [text, keyed] at spelled
      rw [List.tail_eq_of_cons_eq spelled] at among
      rw [each c among] at other
      cases other

/-- A document that sets a field of the environment under a negative key. -/
def negativeKey : Value :=
  .object [("blocks", .list [.object [("name", .str "entry"), ("instrs", .list [.object
    [("op", .str "settabup"), ("upval", .str "U0"), ("key", .int (-1)), ("value", .str "v")]])]])]

def negativeWrite : Function :=
  { blocks := [⟨.str "entry", [.instruction
      { tag := .str "settabup"
        args := [.upvalue (.int 0), .constant (.int (-1)), .register (.str "v")] }]⟩] }

theorem function_negativeKey : function negativeKey = .ok negativeWrite := by rfl

theorem function_indexed_iff_at_negativeKey :
    function negativeKey = .ok negativeWrite ∧
      (¬ ∀ o ∈ negativeWrite.operands, Indexed o) ∧
      ∃ t, (Allocator.resolve { stem := id } (.constant (.int (-1)))) = .ok (t, { stem := id }) ∧
        ¬ Decimal .constants t := by
  obtain ⟨every, exactly, tokens⟩ := function_indexed_iff function_negativeKey
  have stray : ∃ i ∈ instructionsOf negativeKey, StrayKey i (.int (-1)) := by
    refine ⟨_, List.mem_cons_self, _, rfl, rfl, .negative (by decide), ?_⟩
    rintro tag ⟨⟩
    constructor <;> simp
  obtain ⟨i, listed, held⟩ := stray
  have member := (exactly (.constant (.int (-1)))).mpr ⟨i, listed, _, held, rfl⟩
  refine ⟨function_negativeKey, ?_, ?_⟩
  · intro indexed
    exact every.mp indexed ⟨i, listed, _, held⟩
  · obtain ⟨t, resolved, decimal⟩ := tokens .constants _ member.1 { stem := id }
    exact ⟨t, resolved, mt decimal.mpr member.2⟩

/-- Nothing but natural numbers for indices is not what every accepted document gives. -/
theorem negativeKey_unindexed :
    ¬ ∀ v f, function v = .ok f → ∀ o ∈ f.operands, Indexed o := by
  intro every
  have member : Pool.entry .constants (.int (-1)) ∈ negativeWrite.operands :=
    List.mem_cons_of_mem _ List.mem_cons_self
  obtain ⟨n, same⟩ := every _ _ function_negativeKey _ member .constants _ rfl
  cases same

end Document

end BlockAsm
