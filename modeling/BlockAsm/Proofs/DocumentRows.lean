import BlockAsm.Proofs.BlockCuts
import BlockAsm.Proofs.LoopSetup

/-!
The rows of a document, which are what lies between its line feeds. Apart from the constants, no row is
written in pieces if no name, label, index or payload of the function holds a line feed. A constant is
written in one row unless it is a text with a line feed: literals and JSON escape line feeds, the form
for constants does not.
-/

namespace BlockAsm

namespace Text

/-- The text cut at every line feed. -/
def rows (s : String) : List String := (s.toList.splitOn '\n').map String.ofList

def Unbroken (s : String) : Prop := '\n' ∉ s.toList

instance : DecidablePred Unbroken := fun s => inferInstanceAs (Decidable ('\n' ∉ s.toList))

theorem rows_ne_nil (s : String) : rows s ≠ [] := by
  simp [rows, List.splitOn, List.splitOnP_ne_nil]

theorem rows_of_unbroken {s : String} (unbroken : Unbroken s) : rows s = [s] := by
  have whole : s.toList.splitOn '\n' = [s.toList] := by
    apply List.splitOn_eq_singleton_of_beq_eq_false
    intro c membership
    rw [beq_eq_false_iff_ne]
    rintro rfl
    exact unbroken membership
  simp [rows, whole]

theorem rows_append_break (s t : String) : rows (s ++ "\n" ++ t) = rows s ++ rows t := by
  have parts : (s ++ "\n" ++ t).toList = s.toList ++ '\n' :: t.toList := by simp
  rw [rows, parts, List.splitOn, List.splitOnP_append_cons _ _ (by simp), List.map_append]
  rfl

theorem length_rows_eq_one_iff (s : String) : (rows s).length = 1 ↔ Unbroken s := by
  constructor
  · intro one broken
    obtain ⟨front, back, split⟩ := List.append_of_mem broken
    have cut : s = String.ofList front ++ "\n" ++ String.ofList back := by
      apply String.toList_inj.mp
      simpa using split
    rw [cut, rows_append_break, List.length_append] at one
    have first := List.length_pos_iff.mpr (rows_ne_nil (String.ofList front))
    have second := List.length_pos_iff.mpr (rows_ne_nil (String.ofList back))
    omega
  · intro unbroken
    rw [rows_of_unbroken unbroken, List.length_singleton]

theorem rows_intercalate {lines : List String} (some : lines ≠ []) :
    rows (String.intercalate "\n" lines) = lines.flatMap rows := by
  induction lines with
  | nil => exact absurd rfl some
  | cons line rest ih =>
    cases rest with
    | nil => simp
    | cons next rest =>
      rw [String.intercalate_cons_cons, rows_append_break, ih (List.cons_ne_nil _ _)]
      rfl

theorem flatMap_rows_of_unbroken {lines : List String} (unbroken : ∀ line ∈ lines, Unbroken line) :
    lines.flatMap rows = lines := by
  induction lines with
  | nil => rfl
  | cons line rest ih =>
    rw [List.flatMap_cons, rows_of_unbroken (unbroken line (by simp)),
      ih fun other later => unbroken other (by simp [later]), List.singleton_append]

@[simp] theorem unbroken_append {s t : String} : Unbroken (s ++ t) ↔ Unbroken s ∧ Unbroken t := by
  simp [Unbroken, not_or]

theorem unbroken_intercalate {separator : String} (between : Unbroken separator) {parts : List String}
    (unbroken : ∀ part ∈ parts, Unbroken part) : Unbroken (String.intercalate separator parts) := by
  induction parts with
  | nil => simp [Unbroken]
  | cons part rest ih =>
    have own := unbroken part (by simp)
    have others := ih fun other later => unbroken other (by simp [later])
    cases rest with
    | nil => simpa using own
    | cons next rest =>
      rw [String.intercalate_cons_cons]
      simp only [unbroken_append]
      exact ⟨⟨own, between⟩, others⟩

theorem unbroken_ofList {cs : List Char} : Unbroken (String.ofList cs) ↔ '\n' ∉ cs := by
  simp [Unbroken]

theorem break_notMem_toDigits (n : Nat) : '\n' ∉ Nat.toDigits 10 n := by
  intro membership
  cases Nat.isDigit_of_mem_toDigits (by decide) (by decide) membership

theorem unbroken_nat (n : Nat) : Unbroken (toString n) := by
  have digits : (toString n).toList = Nat.toDigits 10 n := Nat.toList_repr
  rw [Unbroken, digits]
  exact break_notMem_toDigits n

theorem unbroken_int (n : Int) : Unbroken (toString n) := Integer.notMem_repr (by decide) (by decide) n

theorem break_notMem_hex (n width : Nat) : '\n' ∉ hex n width := by
  have digits : ∀ d < 16, Nat.digitChar d ≠ '\n' := by decide
  induction width generalizing n with
  | zero => exact List.not_mem_nil
  | succ width ih =>
    have last := digits (n % 16) (Nat.mod_lt _ (by decide))
    simp [hex, ih, hexDigit, last.symm]

theorem unbroken_literal (s : String) : Unbroken (literal s) := by
  have quote : ∀ cs, literalQuote cs ≠ '\n' := by
    intro cs
    unfold literalQuote
    split <;> decide
  have char : ∀ q c, q ≠ '\n' → '\n' ∉ literalChar q c := by
    intro q c plain
    by_cases feed : c = '\n'
    · subst feed
      simp [literalChar, plain.symm]
    · unfold literalChar
      repeat' split
      all_goals simp [Ne.symm feed, break_notMem_hex]
  rw [literal, unbroken_ofList]
  simp [Ne.symm (quote s.toList), char _ _ (quote s.toList)]

theorem unbroken_json (s : String) : Unbroken (json s) := by
  have char : ∀ c, '\n' ∉ jsonChar c := by
    intro c
    by_cases feed : c = '\n'
    · subst feed
      decide
    · simp only [jsonChar, jsonUnit]
      repeat' split
      all_goals simp [Ne.symm feed, break_notMem_hex]
  rw [json, unbroken_ofList]
  simp [char]

theorem break_mem_constantChar (c : Char) : '\n' ∈ constantChar c ↔ '\n' = c := by
  unfold constantChar
  split <;> simp

/-- The form for constants keeps line feeds as they are. -/
theorem unbroken_escapeConstant (s : String) : Unbroken (escapeConstant s) ↔ Unbroken s := by
  rw [escapeConstant, unbroken_ofList, Unbroken]
  simp [break_mem_constantChar]

end Text

namespace Decimal

theorem break_notMem_figures (d : Decimal) : '\n' ∉ d.figures := by
  intro membership
  have digit : '\n' ∈ Nat.toDigits 10 d.digits := by
    rw [figures, trimZeros, List.mem_reverse] at membership
    exact List.mem_reverse.mp ((List.dropWhile_sublist _).mem membership)
  exact Text.break_notMem_toDigits _ digit

theorem break_notMem_zerosText (n : Nat) : '\n' ∉ zerosText n := by
  intro membership
  cases List.eq_of_mem_replicate membership

theorem break_notMem_text (d : Decimal) : '\n' ∉ d.text := by
  have taken : ∀ n, '\n' ∉ d.figures.take n := fun n membership =>
    d.break_notMem_figures (List.mem_of_mem_take membership)
  have dropped : ∀ n, '\n' ∉ d.figures.drop n := fun n membership =>
    d.break_notMem_figures (List.mem_of_mem_drop membership)
  have tail : '\n' ∉ d.figures.tail := fun membership =>
    d.break_notMem_figures (List.mem_of_mem_tail membership)
  unfold text
  split
  · unfold positional
    split
    · simp only [List.mem_append, List.mem_cons]
      split <;> simp [taken, dropped, break_notMem_zerosText]
    · simp [break_notMem_zerosText, break_notMem_figures]
  · simp only [scientific, exponentText, List.mem_append, List.mem_cons]
    split <;> split <;>
      simp [taken, tail, break_notMem_zerosText, Text.break_notMem_toDigits]

end Decimal

theorem Binary64.unbroken_text {words : FloatWords} (nan : Text.Unbroken words.nan)
    (infinity : Text.Unbroken words.infinity) (x : Binary64) : Text.Unbroken (x.text words) := by
  have sign : ∀ negative : Bool, Text.Unbroken (if negative then "-" else "") := by decide
  cases x with
  | nan => exact nan
  | infinite negative => exact Text.unbroken_append.mpr ⟨sign negative, infinity⟩
  | finite negative m e =>
    refine Text.unbroken_append.mpr ⟨sign negative, ?_⟩
    split
    · decide
    · exact Text.unbroken_ofList.mpr (Decimal.break_notMem_text _)

namespace Value

/-- The value is no text with a line feed. -/
def Unbroken (v : Value) : Prop := ∀ s, v = .str s → Text.Unbroken s

theorem unbroken_null : Unbroken .null := fun _ same => by cases same

theorem unbroken_int (n : Int) : Unbroken (.int n) := fun _ same => by cases same

mutual

/-- Quoting leaves no line feed, however deep it is. -/
theorem unbroken_quoted : ∀ v : Value, Text.Unbroken v.literal ∧ Text.Unbroken v.json
  | .null => by decide
  | .bool true => by decide
  | .bool false => by decide
  | .int n => ⟨Text.unbroken_int n, Text.unbroken_int n⟩
  | .float x => ⟨x.unbroken_text (by decide) (by decide), x.unbroken_text (by decide) (by decide)⟩
  | .str s => ⟨Text.unbroken_literal s, Text.unbroken_json s⟩
  | .list items => by
    obtain ⟨literals, jsons⟩ := unbroken_quotedItems items
    simp only [literal, json, commaSeparated, Text.unbroken_append]
    exact ⟨⟨⟨by decide, Text.unbroken_intercalate (by decide) literals⟩, by decide⟩,
      ⟨by decide, Text.unbroken_intercalate (by decide) jsons⟩, by decide⟩
  | .object fields => by
    obtain ⟨literals, jsons⟩ := unbroken_quotedFields fields
    simp only [literal, json, commaSeparated, Text.unbroken_append]
    exact ⟨⟨⟨by decide, Text.unbroken_intercalate (by decide) literals⟩, by decide⟩,
      ⟨by decide, Text.unbroken_intercalate (by decide) jsons⟩, by decide⟩

theorem unbroken_quotedItems : ∀ items : List Value,
    (∀ s ∈ literalItems items, Text.Unbroken s) ∧ ∀ s ∈ jsonItems items, Text.Unbroken s
  | [] => ⟨(fun _ none => nomatch none), (fun _ none => nomatch none)⟩
  | v :: rest => by
    obtain ⟨literals, jsons⟩ := unbroken_quotedItems rest
    obtain ⟨literal, json⟩ := unbroken_quoted v
    simp only [literalItems, jsonItems, List.forall_mem_cons]
    exact ⟨⟨literal, literals⟩, json, jsons⟩

theorem unbroken_quotedFields : ∀ fields : List (String × Value),
    (∀ s ∈ literalFields fields, Text.Unbroken s) ∧ ∀ s ∈ jsonFields fields, Text.Unbroken s
  | [] => ⟨(fun _ none => nomatch none), (fun _ none => nomatch none)⟩
  | (k, v) :: rest => by
    obtain ⟨literals, jsons⟩ := unbroken_quotedFields rest
    obtain ⟨literal, json⟩ := unbroken_quoted v
    have colon : Text.Unbroken ": " := by decide
    simp only [literalFields, jsonFields, List.forall_mem_cons, Text.unbroken_append]
    exact ⟨⟨⟨⟨Text.unbroken_literal k, colon⟩, literal⟩, literals⟩,
      ⟨⟨Text.unbroken_json k, colon⟩, json⟩, jsons⟩

end

theorem Unbroken.plain {v : Value} (unbroken : v.Unbroken) : Text.Unbroken v.plain := by
  cases v with
  | str s => exact unbroken s rfl
  | _ => exact (unbroken_quoted _).1

theorem Unbroken.scalarText {v : Value} (unbroken : v.Unbroken) :
    Text.Unbroken (Assembly.scalarText v) := by
  cases v with
  | null => decide
  | bool b => cases b <;> decide
  | _ => exact unbroken.plain

end Value

namespace Assembly

/-- Of the constants only a text with a line feed is written in pieces. -/
theorem unbroken_constantText (v : Value) : Text.Unbroken (constantText v) ↔ v.Unbroken := by
  have quote : Text.Unbroken "\"" := by decide
  cases v with
  | str s => simp [constantText, scalarText, Value.plain, quote, Text.unbroken_escapeConstant, Value.Unbroken]
  | null => simp [constantText, scalarText, Value.Unbroken]; decide
  | bool b => cases b <;> simp [constantText, scalarText, Value.Unbroken] <;> decide
  | int n => simp [constantText, Value.Unbroken, (Value.unbroken_quoted _).1, Value.plain]
  | float x => simp [constantText, Value.Unbroken, (Value.unbroken_quoted _).1, Value.plain]
  | list items => simp [constantText, Value.Unbroken, (Value.unbroken_quoted _).2]
  | object fields => simp [constantText, Value.Unbroken, (Value.unbroken_quoted _).2]

theorem unbroken_constantLine (index : Nat) (v : Value) :
    Text.Unbroken (constantLine index v) ↔ v.Unbroken := by
  have front : Text.Unbroken "K" ∧ Text.Unbroken " = " := by decide
  simp only [constantLine, Text.unbroken_append, front, Text.unbroken_nat, unbroken_constantText,
    true_and]

end Assembly

def Operand.Unbroken : Operand → Prop
  | .constant index => index.Unbroken
  | .upvalue index => index.Unbroken
  | _ => True

theorem Operand.Unbroken.ofBareName {o : Operand} (unbroken : o.Unbroken) : o.ofBareName.Unbroken := by
  unfold Operand.ofBareName
  split
  · trivial
  · exact unbroken

def Token.Unbroken : Token → Prop
  | .register _ => True
  | .constant index => index.Unbroken
  | .upvalue index => index.Unbroken

theorem Token.Unbroken.text {t : Token} (unbroken : t.Unbroken) : Text.Unbroken t.text := by
  cases t with
  | register slot => exact Text.unbroken_append.mpr ⟨by decide, Text.unbroken_int slot⟩
  | constant index => exact Text.unbroken_append.mpr ⟨by decide, unbroken.plain⟩
  | upvalue index => exact Text.unbroken_append.mpr ⟨by decide, unbroken.plain⟩

theorem Opcode.unbroken_mnemonic (o : Opcode) : Text.Unbroken o.mnemonic := by
  cases o with
  | arith a => cases a <;> decide
  | _ => decide

def Line.Unbroken (line : Line) : Prop := line.value.Unbroken

theorem Line.unbroken_text {s : String} (unbroken : Text.Unbroken s) : (Line.text s).Unbroken := by
  intro other same
  cases same
  exact unbroken

theorem Line.unbroken_code (o : Opcode) {tokens : List Token} {immediates : List Value}
    (unbroken : ∀ t ∈ tokens, t.Unbroken) (plain : ∀ v ∈ immediates, v.Unbroken) :
    (Line.code ⟨o, tokens, immediates⟩).Unbroken := by
  apply Line.unbroken_text
  apply Text.unbroken_intercalate (by decide)
  simp only [List.mem_append, List.mem_cons, List.mem_map]
  rintro part ((rfl | ⟨t, token, rfl⟩) | ⟨v, value, rfl⟩)
  · exact o.unbroken_mnemonic
  · exact (unbroken t token).text
  · exact (plain v value).plain

namespace Recipe

def Unbroken : Recipe → Prop
  | .line _ operands immediates => (∀ o ∈ operands, o.Unbroken) ∧ ∀ v ∈ immediates, v.Unbroken
  | .abort _ _ => True
  | .giveBack operands => ∀ o ∈ operands, o.Unbroken
  | .enterLoop _ limit step target => limit.Unbroken ∧ step.Unbroken ∧ target.Unbroken
  | .stepLoop index body => index.Unbroken ∧ body.Unbroken
  | .verbatim payload => payload.Unbroken

end Recipe

/-- No index of an operand and no value of the metadata holds a line feed. -/
structure Instruction.Unbroken (i : Instruction) : Prop where
  operands : ∀ o ∈ i.dest.toList ++ i.args, o.Unbroken
  metadata : ∀ fields : Fields, i.metadata = .object fields → ∀ e ∈ fields, e.2.Unbroken

namespace Instruction

variable {i : Instruction}

theorem Unbroken.args (unbroken : i.Unbroken) {o : Operand} (given : o ∈ i.args) : o.Unbroken :=
  unbroken.operands o (List.mem_append_right _ given)

theorem Unbroken.arg (unbroken : i.Unbroken) {n : Nat} {role : String} {o : Operand}
    (given : i.arg n role = .ok o) : o.Unbroken :=
  unbroken.args (List.mem_of_getElem? (arg_eq_ok given))

theorem Unbroken.field? (unbroken : i.Unbroken) {name : String} {v : Value}
    (found : i.field? name = some v) : v.Unbroken := by
  unfold Instruction.field? at found
  split at found
  · rename_i fields object
    obtain ⟨m, listed, -⟩ := Table.exists_mem_of_get? found
    exact unbroken.metadata fields object (m, v) listed
  · cases found

theorem Unbroken.field (unbroken : i.Unbroken) {fields : Fields} (object : i.fields = .ok fields)
    {name : String} {v : Value} (found : Table.get? fields name = some v) : v.Unbroken := by
  have named : i.field? name = some v := by
    rw [Instruction.field?, fields_eq_ok object]
    exact found
  exact unbroken.field? named

theorem Unbroken.fieldOr (unbroken : i.Unbroken) {fields : Fields} (object : i.fields = .ok fields)
    (name older : String) {otherwise : Value} (default : otherwise.Unbroken) :
    (fieldOr fields name older otherwise).Unbroken := by
  unfold Instruction.fieldOr
  cases found : Table.get? fields name with
  | some v => exact unbroken.field object found
  | none =>
    cases second : Table.get? fields older with
    | some v => exact unbroken.field object second
    | none => exact default

theorem Unbroken.getD (unbroken : i.Unbroken) (name : String) {otherwise : Value}
    (default : otherwise.Unbroken) : ((i.field? name).getD otherwise).Unbroken := by
  cases found : i.field? name with
  | some v => exact unbroken.field? found
  | none => exact default

theorem Unbroken.sources (unbroken : i.Unbroken) (o : Opcode) : ∀ s ∈ i.sources o, s.Unbroken := by
  have bare : ∀ {s : Operand}, s ∈ i.args → s.ofBareName.Unbroken := fun given =>
    (unbroken.args given).ofBareName
  intro s listed
  cases o with
  | loadk =>
    cases given : i.args with
    | cons first rest =>
      simp only [Instruction.sources, given, List.head?_cons, Option.some_or, Option.toList_some,
        List.mem_singleton] at listed
      exact unbroken.args (by simp [listed, given])
    | nil =>
      simp only [Instruction.sources, given, List.head?_nil, Option.none_or, Option.mem_toList,
        Option.map_eq_some_iff] at listed
      obtain ⟨v, found, rfl⟩ := listed
      exact unbroken.field? found
  | gettabup =>
    simp only [Instruction.sources, List.mem_cons, List.not_mem_nil, or_false] at listed
    rcases listed with rfl | rfl
    · cases given : i.args with
      | nil => exact Value.unbroken_int 0
      | cons first rest => exact unbroken.args (by simp [given])
    · cases found : i.field? "key" with
      | some v => exact unbroken.field? found
      | none => exact unbroken.getD "key_c" (Value.unbroken_int 0)
  | settabup =>
    simp only [Instruction.sources, List.mem_append, List.mem_map] at listed
    rcases listed with environment | ⟨t, given, rfl⟩
    · exact unbroken.args (List.mem_of_mem_take environment)
    · exact bare (List.mem_of_mem_drop (List.mem_of_mem_take given))
  | settable =>
    simp only [Instruction.sources, List.mem_append, List.mem_map] at listed
    rcases listed with table | ⟨t, given, rfl⟩
    · exact unbroken.operands s (List.mem_append_left _ table)
    · exact bare (List.mem_of_mem_take given)
  | move => exact unbroken.args (List.mem_of_mem_take listed)
  | arith a => exact unbroken.args (List.mem_of_mem_take listed)
  | ret => exact unbroken.args listed
  | _ => cases listed

theorem Unbroken.immediates (unbroken : i.Unbroken) (o : Opcode) :
    ∀ v ∈ i.immediates o, v.Unbroken := by
  intro v listed
  cases o with
  | newtable =>
    simp only [Instruction.immediates, List.mem_cons, List.not_mem_nil, or_false] at listed
    rcases listed with rfl | rfl
    · exact unbroken.getD "array_size" (Value.unbroken_int 0)
    · exact unbroken.getD "hash_size" (Value.unbroken_int 0)
  | _ => cases listed

theorem Unbroken.result (unbroken : i.Unbroken) (o : Opcode) {d : Operand} (dest : i.dest = some d) :
    (Recipe.line o (d :: i.sources o) (i.immediates o)).Unbroken := by
  refine ⟨?_, unbroken.immediates o⟩
  rw [List.forall_mem_cons]
  exact ⟨unbroken.operands d (by simp [dest]), unbroken.sources o⟩

theorem Unbroken.opcodeRecipe (unbroken : i.Unbroken) {o : Opcode} {r : Recipe}
    (settled : i.opcodeRecipe o = .ok r) : r.Unbroken := by
  cases o with
  | loadk =>
    obtain ⟨d, dest, rfl⟩ := loadRecipe_eq_ok settled
    exact unbroken.result .loadk dest
  | move =>
    obtain ⟨d, dest, rfl⟩ := moveRecipe_eq_ok settled
    exact unbroken.result .move dest
  | gettabup =>
    obtain ⟨d, dest, rfl⟩ := getFieldRecipe_eq_ok settled
    exact unbroken.result .gettabup dest
  | newtable =>
    obtain ⟨d, dest, rfl⟩ := newTableRecipe_eq_ok settled
    exact unbroken.result .newtable dest
  | arith a =>
    obtain ⟨d, dest, rfl⟩ := arithRecipe_eq_ok settled
    exact unbroken.result (.arith a) dest
  | settabup =>
    rw [setFieldRecipe_eq_ok settled]
    exact ⟨unbroken.sources .settabup, unbroken.immediates .settabup⟩
  | settable =>
    rcases setTableRecipe_eq_ok settled with ⟨operands, why, rfl⟩ | rfl
    · trivial
    · exact ⟨unbroken.sources .settable, unbroken.immediates .settable⟩
  | call =>
    rw [callRecipe_eq_ok settled]
    refine ⟨fun o given => unbroken.args (List.mem_of_mem_take given), ?_⟩
    simp [Value.unbroken_int, unbroken.getD "nret"]
  | ret =>
    cases settled
    exact unbroken.sources .ret
  | forprep =>
    simp only [Instruction.opcodeRecipe, enterRecipe, Except.bind_eq_ok] at settled
    obtain ⟨fields, object, made⟩ := settled
    split at made
    · cases made
    · simp only [Except.bind_eq_ok] at made
      obtain ⟨index, -, limit, second, step, third, made⟩ := made
      cases made
      exact ⟨unbroken.arg second, unbroken.arg third,
        unbroken.fieldOr object "target" "loop" Value.unbroken_null⟩
  | forloop =>
    obtain ⟨index, body, rest, given, found, rfl⟩ := stepRecipe_eq_ok settled
    exact ⟨unbroken.args (by simp [given]), unbroken.field? found⟩

theorem Unbroken.recipe (unbroken : i.Unbroken) : i.recipe.Unbroken := by
  cases tagged : i.opcode? with
  | error why => simp [recipe_of_fault tagged, Recipe.Unbroken]
  | ok found =>
    cases found with
    | some o =>
      rcases recipe_cases tagged with ⟨why, refused⟩ | settled
      · simp [refused, Recipe.Unbroken]
      · exact unbroken.opcodeRecipe settled
    | none =>
      rw [recipe_of_unknown tagged]
      cases raw : i.rawRecipe with
      | error why => trivial
      | ok r =>
        obtain ⟨payload, found, rfl⟩ := rawRecipe_eq_ok raw
        exact unbroken.field? found

end Instruction

namespace Allocator

variable {a b : Allocator}

theorem unbroken_of_resolve {o : Operand} {t : Token} (unbroken : o.Unbroken)
    (resolved : a.resolve o = .ok (t, b)) : t.Unbroken := by
  cases o with
  | constant index =>
    cases resolved
    exact unbroken
  | upvalue index =>
    cases resolved
    exact unbroken
  | other v => cases resolved
  | register name =>
    simp only [resolve] at resolved
    split at resolved
    · cases resolved
      trivial
    · cases resolved

theorem unbroken_of_resolveAll {operands : List Operand} (unbroken : ∀ o ∈ operands, o.Unbroken)
    {tokens : List Token} (resolved : a.resolveAll operands = (b, .ok tokens)) :
    ∀ t ∈ tokens, t.Unbroken := by
  induction operands generalizing a tokens with
  | nil =>
    cases resolved
    exact fun t listed => nomatch listed
  | cons o rest ih =>
    unfold resolveAll at resolved
    split at resolved
    · cases resolved
    · rename_i t c first
      split at resolved
      · rename_i others
        cases resolved
        rw [List.forall_mem_cons]
        exact ⟨unbroken_of_resolve (unbroken o (by simp)) first,
          ih (fun other later => unbroken other (by simp [later])) others⟩
      · cases resolved

theorem unbroken_of_livesAt {o : Operand} {t : Token} (unbroken : o.Unbroken)
    (lives : a.livesAt o = .ok (some t)) : t.Unbroken := by
  cases o with
  | constant index =>
    cases lives
    exact unbroken
  | upvalue index =>
    cases lives
    exact unbroken
  | other v => cases lives
  | register name =>
    simp only [livesAt, Except.map_eq_ok, Option.map_eq_some_iff] at lives
    obtain ⟨_, -, _, -, rfl⟩ := lives
    trivial

theorem unbroken_of_layOut {index limit step : Operand} {layout : LoopLayout}
    (first : limit.Unbroken) (second : step.Unbroken)
    (laid : (a.layOut index limit step).2.2 = .ok layout) :
    ∀ copy ∈ layout.copies, copy.token.Unbroken := by
  obtain ⟨i, range, copies, rfl, -, -, copied, -, rfl⟩ := layOut_eq_ok laid
  intro copy listed
  obtain ⟨o, control, lives, -⟩ := mem_copies copied listed
  apply unbroken_of_livesAt ?_ lives
  simp only [controls, List.mem_cons, Prod.mk.injEq, List.not_mem_nil, or_false] at control
  rcases control with ⟨rfl, -⟩ | ⟨rfl, -⟩ | ⟨rfl, -⟩
  · trivial
  · exact first
  · exact second

end Allocator

namespace Context

/-- No line of the block that is being written holds a line feed. -/
def Unbroken (c : Context) : Prop := ∀ line ∈ c.lines, line.Unbroken

namespace Unbroken

variable {c : Context}

theorem append (unbroken : c.Unbroken) {d : Context} {lines : List Line}
    (written : d.lines = c.lines ++ lines) (added : ∀ line ∈ lines, line.Unbroken) : d.Unbroken := by
  intro line membership
  rw [written, List.mem_append] at membership
  exact membership.elim (unbroken line) (added line)

theorem write (unbroken : c.Unbroken) {line : Line} (added : line.Unbroken) :
    (c.write line).Unbroken :=
  unbroken.append rfl (by simpa using added)

theorem resolveReturned (unbroken : c.Unbroken) {operands : List Operand}
    (plain : ∀ o ∈ operands, o.Unbroken) :
    (c.resolveReturned operands).1.Unbroken ∧ ∀ tokens, (c.resolveReturned operands).2 = .ok tokens →
      ∀ t ∈ tokens, t.Unbroken := by
  induction operands generalizing c with
  | nil =>
    refine ⟨unbroken, fun tokens none => ?_⟩
    cases none
    exact fun t listed => nomatch listed
  | cons o rest ih =>
    have own := plain o (by simp)
    rw [resolveReturned_cons]
    cases step : c.returnStep o with
    | error why => exact ⟨unbroken, nofun⟩
    | ok r =>
      have next : r.2.Unbroken ∧ r.1.Unbroken := by
        by_cases constant : ∃ index, o = .constant index
        · obtain ⟨index, rfl⟩ := constant
          cases step
          refine ⟨unbroken.write (Line.unbroken_code _ ?_ nofun), trivial⟩
          simpa [Token.Unbroken, Operand.Unbroken] using own
        · obtain ⟨a, resolved, same⟩ := returnStep_eq_ok (not_exists.mp constant) step
          rw [same]
          exact ⟨unbroken, Allocator.unbroken_of_resolve own resolved⟩
      obtain ⟨kept, tokens⟩ := ih next.1 fun other later => plain other (by simp [later])
      refine ⟨kept, fun all same => ?_⟩
      obtain ⟨ts, answered, rfl⟩ := Except.map_eq_ok.mp same
      exact List.forall_mem_cons.mpr ⟨next.2, tokens ts answered⟩

theorem perform (unbroken : c.Unbroken) {r : Recipe} (plain : r.Unbroken) :
    (c.perform r).1.Unbroken := by
  cases r with
  | line o operands immediates =>
    simp only [Context.perform]
    split
    · rename_i a tokens resolved
      exact unbroken.write (Line.unbroken_code o (Allocator.unbroken_of_resolveAll plain.1 resolved)
        plain.2)
    · exact unbroken
  | abort operands why =>
    simp only [Context.perform]
    split <;> exact unbroken
  | giveBack operands =>
    obtain ⟨kept, tokens⟩ := unbroken.resolveReturned plain
    simp only [Context.perform]
    split <;> rename_i d _ resolved <;> rw [resolved] at kept tokens
    · rename_i ts
      apply kept.write
      cases ts with
      | nil => exact Line.unbroken_code _ (List.forall_mem_nil _) (by simp [Value.unbroken_int])
      | cons t ts => exact Line.unbroken_code _ (tokens _ rfl) (by simp [Value.unbroken_int])
    · exact kept
  | enterLoop index limit step target =>
    simp only [Context.perform, Context.enterLoop]
    split
    · exact unbroken
    · rename_i layout laid
      have copies := Allocator.unbroken_of_layOut plain.1 plain.2.1 laid
      apply unbroken.append rfl
      intro line written
      rcases List.mem_append.mp written with copied | jump
      · obtain ⟨copy, listed, rfl⟩ := List.mem_map.mp copied
        have token := copies copy listed
        unfold copyLine
        have tokens : ∀ t ∈ [.register copy.target, copy.token], Token.Unbroken t := by
          simpa [Token.Unbroken] using token
        split <;> exact Line.unbroken_code _ tokens (List.forall_mem_nil _)
      · rw [List.mem_singleton.mp jump]
        exact Line.unbroken_code _ (by simp [Token.Unbroken]) (by simpa using plain.2.2)
  | stepLoop index body =>
    simp only [Context.perform, Context.stepLoop]
    split
    · exact unbroken
    · exact unbroken.write (Line.unbroken_code _ (by simp [Token.Unbroken]) (by simpa using plain.2))
    · split
      · exact unbroken
      · rename_i t a resolved
        have token := Allocator.unbroken_of_resolve plain.1 resolved
        exact unbroken.write (Line.unbroken_code _ (by simpa using token) (by simpa using plain.2))
  | verbatim payload => exact unbroken.write plain

theorem lower (unbroken : c.Unbroken) {item : Item}
    (plain : ∀ i, item = .instruction i → i.Unbroken) : (c.lower item).1.Unbroken := by
  cases item with
  | instruction i => exact unbroken.perform (plain i rfl).recipe
  | other v => exact unbroken

theorem lowerEach (unbroken : c.Unbroken) {items : List Item}
    (plain : ∀ i, .instruction i ∈ items → i.Unbroken) : (c.lowerEach items).Unbroken := by
  apply lowerEach_invariant unbroken
  intro first item reached kept
  apply kept.lower
  rintro i rfl
  exact plain i (reached.subset (by simp))

end Unbroken

end Context

/-- The declared upvalues hold no line feed, or the storage that is written for none does not. -/
def Upvalues.Unbroken (storage : Value) : Upvalues → Prop
  | .declared (d :: rest) => ∀ e ∈ d :: rest, e.name.Unbroken ∧ e.storage.Unbroken
  | _ => storage.Unbroken

/-- The rows for upvalues, of which there is always one. -/
def Upvalues.count : Upvalues → Nat
  | .declared (d :: rest) => (d :: rest).length
  | _ => 1

/-- Nothing that is written for the function holds a line feed, as far as it is no constant. -/
structure Function.Unbroken (f : Function) (storage : Value) : Prop where
  name : f.name.Unbroken
  header : ∀ fields : Fields, f.header = .object fields →
    ∀ e ∈ fields, Text.Unbroken e.1 ∧ e.2.Unbroken
  labels : ∀ b ∈ f.blocks, b.label.Unbroken
  instructions : ∀ b ∈ f.blocks, ∀ i, .instruction i ∈ b.items → i.Unbroken
  upvalues : f.upvalues.Unbroken storage

namespace Text

theorem length_le_flatMap_rows (lines : List String) : lines.length ≤ (lines.flatMap rows).length := by
  induction lines with
  | nil => exact Nat.le_refl 0
  | cons line rest ih =>
    have first := List.length_pos_iff.mpr (rows_ne_nil line)
    rw [List.flatMap_cons, List.length_append, List.length_cons]
    omega

theorem length_flatMap_rows_iff (lines : List String) :
    (lines.flatMap rows).length = lines.length ↔ ∀ line ∈ lines, Unbroken line := by
  induction lines with
  | nil => simp
  | cons line rest ih =>
    have first := List.length_pos_iff.mpr (rows_ne_nil line)
    have others := length_le_flatMap_rows rest
    rw [List.forall_mem_cons, ← ih, ← length_rows_eq_one_iff, List.flatMap_cons, List.length_append,
      List.length_cons]
    omega

end Text

namespace Assembly

/-- One row for each of so many constants, which begins with its number. -/
def Numbered (constants : List String) (count : Nat) : Prop :=
  constants.length = count ∧ ∀ (i : Nat) (row : String), constants[i]? = some row →
    ("K" ++ toString i ++ " = ").toList <+: row.toList

theorem unbroken_headerField {name : String} {v : Value} (named : Text.Unbroken name)
    (unbroken : v.Unbroken) : Text.Unbroken (headerField name v) := by
  simp only [headerField, Text.unbroken_append]
  exact ⟨⟨named, by decide⟩, unbroken.scalarText⟩

theorem unbroken_headerText {f : Function} {storage : Value} (unbroken : f.Unbroken storage)
    {header : String} (headed : headerText f.header = .ok header) : Text.Unbroken header := by
  cases object : f.header with
  | object fields =>
    have each := unbroken.header fields object
    have leading : ∀ k ∈ leadingFields, Text.Unbroken k := by decide
    rw [object] at headed
    cases headed
    apply Text.unbroken_intercalate (by decide)
    intro part listed
    rcases List.mem_append.mp listed with first | other
    · obtain ⟨k, known, shown⟩ := List.mem_filterMap.mp first
      obtain ⟨v, found, rfl⟩ := Option.map_eq_some_iff.mp shown
      obtain ⟨m, given, -⟩ := Table.exists_mem_of_get? found
      exact unbroken_headerField (leading k known) (each (m, v) given).2
    · obtain ⟨e, given, rfl⟩ := List.mem_map.mp other
      obtain ⟨named, plain⟩ := each e (List.mem_of_mem_filter given)
      exact unbroken_headerField named plain
  | _ =>
    rw [object] at headed
    simp only [headerText] at headed
    split at headed <;> cases headed

theorem unbroken_upvalueLines {decls : List UpvalueDecl}
    (unbroken : ∀ d ∈ decls, d.name.Unbroken ∧ d.storage.Unbroken) (index : Nat) :
    (upvalueLines index decls).length = decls.length ∧
      ∀ line ∈ upvalueLines index decls, Text.Unbroken line := by
  induction decls generalizing index with
  | nil => exact ⟨rfl, fun line listed => nomatch listed⟩
  | cons d rest ih =>
    obtain ⟨name, storage⟩ := unbroken d (by simp)
    obtain ⟨count, others⟩ := ih (fun e later => unbroken e (by simp [later])) (index + 1)
    have shown : Text.Unbroken (if d.name.truthy then d.name.plain else "U" ++ toString index) := by
      split
      · exact name.plain
      · exact Text.unbroken_append.mpr ⟨by decide, Text.unbroken_nat index⟩
    have first : Text.Unbroken (upvalueLine index d) := by
      simp only [upvalueLine, Text.unbroken_append]
      exact ⟨⟨shown, by decide⟩, storage.plain⟩
    rw [upvalueLines, List.length_cons, count, List.length_cons, List.forall_mem_cons]
    exact ⟨rfl, first, others⟩

theorem unbroken_upvalueSection {upvalues : Upvalues} {storage : Value}
    (unbroken : upvalues.Unbroken storage) {lines : List String}
    (listed : upvalueSection upvalues storage = .ok lines) :
    lines.length = upvalues.count ∧ ∀ line ∈ lines, Text.Unbroken line := by
  have single : storage.Unbroken → ([defaultUpvalueLine storage].length = 1 ∧
      ∀ line ∈ [defaultUpvalueLine storage], Text.Unbroken line) := by
    intro plain
    refine ⟨rfl, ?_⟩
    simp only [List.mem_singleton, forall_eq, defaultUpvalueLine, Text.unbroken_append]
    exact ⟨by decide, plain.plain⟩
  cases upvalues with
  | declared decls =>
    cases decls with
    | nil =>
      cases listed
      exact single unbroken
    | cons d rest =>
      cases listed
      exact unbroken_upvalueLines unbroken 0
  | other v =>
    simp only [upvalueSection] at listed
    split at listed
    · split at listed <;> cases listed
    · cases listed
      exact single unbroken

theorem unbroken_constantLines (index : Nat) (pool : List Value) :
    (∀ line ∈ constantLines index pool, Text.Unbroken line) ↔ ∀ v ∈ pool, v.Unbroken := by
  induction pool generalizing index with
  | nil => simp [constantLines]
  | cons v rest ih =>
    rw [constantLines, List.forall_mem_cons, List.forall_mem_cons, ih, unbroken_constantLine]

theorem length_constantLines (index : Nat) (pool : List Value) :
    (constantLines index pool).length = pool.length := by
  induction pool generalizing index with
  | nil => rfl
  | cons v rest ih => rw [constantLines, List.length_cons, ih, List.length_cons]

theorem getElem?_constantLines (index : Nat) (pool : List Value) (i : Nat) :
    (constantLines index pool)[i]? = pool[i]?.map (constantLine (index + i)) := by
  induction pool generalizing index i with
  | nil => rfl
  | cons v rest ih =>
    cases i with
    | zero => rfl
    | succ i =>
      rw [constantLines, List.getElem?_cons_succ, List.getElem?_cons_succ, ih, Nat.add_right_comm,
        Nat.add_assoc]

theorem constantLines_numbered (pool : List Value) : Numbered (constantLines 0 pool) pool.length := by
  refine ⟨length_constantLines 0 pool, fun i row found => ?_⟩
  rw [getElem?_constantLines, Nat.zero_add] at found
  obtain ⟨v, -, rfl⟩ := Option.map_eq_some_iff.mp found
  simp only [constantLine, String.toList_append]
  exact List.prefix_append _ _

/-- The rows of the constants are numbered one by one exactly if no constant is a text with a line feed. -/
theorem numbered_rows_iff (pool : List Value) :
    Numbered ((constantLines 0 pool).flatMap Text.rows) pool.length ↔ ∀ v ∈ pool, v.Unbroken := by
  rw [← unbroken_constantLines 0 pool, ← Text.length_flatMap_rows_iff, length_constantLines]
  constructor
  · exact fun numbered => numbered.1
  · intro count
    have unbroken := (Text.length_flatMap_rows_iff _).mp (count.trans (length_constantLines 0 pool).symm)
    rw [Text.flatMap_rows_of_unbroken unbroken]
    exact constantLines_numbered pool

/-- Of the parts of a document only the constants are cut further. -/
theorem rows_layout {f : Function} {storage : Value} (unbroken : f.Unbroken storage) {header : String}
    (head : Text.Unbroken header) {body upvalues : List String}
    (blocks : ∀ row ∈ body, Text.Unbroken row) (declared : ∀ row ∈ upvalues, Text.Unbroken row)
    (constants : List String) : Text.rows (String.intercalate "\n"
      (layout f header body constants upvalues)) =
        layout f header body (constants.flatMap Text.rows) upvalues := by
  have opening : ∀ row ∈ openingLines f header, Text.Unbroken row := by
    simp only [openingLines, List.forall_mem_cons]
    exact ⟨Text.unbroken_append.mpr ⟨by decide, unbroken.name.plain⟩, by decide, head, by decide,
      List.forall_mem_nil _⟩
  have fixed : ∀ s, Text.Unbroken s → ∀ rest : List String,
      (s :: rest).flatMap Text.rows = s :: rest.flatMap Text.rows := by
    intro s plain rest
    rw [List.flatMap_cons, Text.rows_of_unbroken plain, List.singleton_append]
  rw [Text.rows_intercalate (by simp [layout, openingLines])]
  simp only [layout, List.flatMap_append, Text.flatMap_rows_of_unbroken opening,
    fixed ".instruction" (by decide), Text.flatMap_rows_of_unbroken blocks, fixed ".const" (by decide),
    fixed ".upvalue" (by decide), Text.flatMap_rows_of_unbroken declared, fixed ".endfn" (by decide),
    List.flatMap_nil]

theorem unbroken_written {f : Function} {storage : Value} (unbroken : f.Unbroken storage)
    {c : Context} (seeded : c.Seeded) {written : List Written}
    (blocks : written.map Written.block = f.blocks)
    (code : written.flatMap Written.code = c.segments (f.blocks.flatMap Block.items)) :
    ∀ row ∈ written.flatMap Written.rows, Text.Unbroken row := by
  have empty : c.Unbroken := by
    intro line membership
    rw [seeded.lines] at membership
    cases membership
  have lowered : (c.lowerEach (f.blocks.flatMap Block.items)).Unbroken := by
    apply empty.lowerEach
    intro i membership
    obtain ⟨b, block, item⟩ := List.mem_flatMap.mp membership
    exact unbroken.instructions b block i item
  have lines : ∀ w ∈ written, ∀ line ∈ w.code.flatMap Prod.snd, line.Unbroken := by
    intro w listed line membership
    apply lowered line
    rw [Context.lowerEach_lines, seeded.lines, List.nil_append, ← code]
    obtain ⟨e, own, inside⟩ := List.mem_flatMap.mp membership
    exact List.mem_flatMap.mpr ⟨e, List.mem_flatMap.mpr ⟨w, listed, own⟩, inside⟩
  have labels : ∀ w ∈ written, w.label.Unbroken := by
    intro w listed
    apply unbroken.labels w.block
    rw [← blocks]
    exact List.mem_map_of_mem listed
  intro row membership
  obtain ⟨w, listed, own⟩ := List.mem_flatMap.mp membership
  simp only [Written.rows, Written.kept, List.cons_append, List.mem_cons, List.mem_append, List.mem_map,
    List.not_mem_nil, or_false] at own
  rcases own with rfl | rfl | ⟨line, inside, rfl⟩ | rfl | rfl
  · exact Text.unbroken_append.mpr ⟨(labels w listed).plain, by decide⟩
  · decide
  · exact (lines w listed line inside).plain
  · decide
  · decide

theorem constantSection_eq_ok {pool : Value} {constants : List String}
    (pooled : constantSection pool = .ok constants) :
    ∃ values, pool.members? = some values ∧ constantLines 0 values = constants := by
  unfold constantSection at pooled
  split at pooled
  · rename_i values members
    exact ⟨values, members, Except.ok.inj pooled⟩
  · cases pooled

end Assembly

/-- Cut at its line feeds, a document is the rows of its parts, where each constant has the rows of its
own line. Each has only one, begun with its number, exactly if no constant is a text with a line feed. -/
theorem compile_rows {settings : Settings} {f : Function} {text : String}
    (compiled : (compile settings f).outcome = .ok text)
    (unbroken : f.Unbroken settings.generation.storage) :
    ∃ (c : Context) (header : String) (written : List Written) (pool : List Value)
      (upvalues : List String),
      Context.create settings.generation.suffix f.locals = .ok c ∧
      Assembly.headerText f.header = .ok header ∧ f.consts.members? = some pool ∧
      Assembly.upvalueSection f.upvalues settings.generation.storage = .ok upvalues ∧
      upvalues.length = f.upvalues.count ∧ written.map Written.block = f.blocks ∧
      written.flatMap Written.code = c.segments (f.blocks.flatMap Block.items) ∧
      Text.rows text = Assembly.layout f header (written.flatMap Written.rows)
        ((Assembly.constantLines 0 pool).flatMap Text.rows) upvalues ∧
      ((∃ constants, Assembly.Numbered constants pool.length ∧
          Text.rows text = Assembly.layout f header (written.flatMap Written.rows) constants upvalues) ↔
        ∀ v ∈ pool, v.Unbroken) := by
  obtain ⟨c, d, created, assembled⟩ := compile_generatedAs compiled
  obtain ⟨_, written, -, -, shown, code⟩ := Assembly.assemble_shows assembled
  obtain ⟨header, constants, upvalues, headed, pooled, declared, rfl⟩ := shown.joined
  obtain ⟨pool, members, rfl⟩ := Assembly.constantSection_eq_ok pooled
  obtain ⟨count, plain⟩ := Assembly.unbroken_upvalueSection unbroken.upvalues declared
  have blocks := Assembly.unbroken_written unbroken (Context.create_seeded created) shown.blocks code
  have whole := Assembly.rows_layout unbroken (Assembly.unbroken_headerText unbroken headed) blocks plain
    (Assembly.constantLines 0 pool)
  refine ⟨c, header, written, pool, upvalues, created, headed, members, declared, count, shown.blocks,
    code, whole, ?_⟩
  rw [← Assembly.numbered_rows_iff]
  constructor
  · rintro ⟨constants, numbered, same⟩
    have parts := whole.symm.trans same
    simp only [Assembly.layout, List.append_cancel_right_eq, List.append_cancel_left_eq,
      List.cons.injEq, true_and] at parts
    rwa [parts]
  · intro numbered
    exact ⟨_, numbered, whole⟩

/-- Line feeds in the members of a list and in the names of fields. -/
def nestedPool : List Value := [.str "a", .list [.str "x\ny"], .object [("k\n", .null)]]

theorem emptyBlock_unbroken (pool : List Value) :
    Function.Unbroken { emptyBlock with consts := .list pool } (.str Assembly.defaultUpvalue) := by
  have plain : ∀ s, Text.Unbroken s → (Value.str s).Unbroken := by
    rintro s unbroken _ ⟨⟩
    exact unbroken
  refine ⟨plain _ (by decide), ?_, ?_, ?_, plain _ (by decide)⟩
  · rintro fields ⟨⟩
    exact nofun
  · simp only [emptyBlock, List.mem_singleton, forall_eq]
    exact plain _ (by decide)
  · simp [emptyBlock]

theorem compile_rows_of_nestedPool :
    Function.Unbroken { emptyBlock with consts := .list nestedPool } (.str Assembly.defaultUpvalue) ∧
      ∃ text, (compile {} { emptyBlock with consts := .list nestedPool }).outcome = .ok text ∧
        ∃ constants, Assembly.Numbered constants 3 ∧
          Text.rows text = Assembly.layout emptyBlock "" ["entry:", ".scope", ".endscope", ""] constants
            ["U0 = L0 R0"] := by
  have unbroken := emptyBlock_unbroken nestedPool
  have checked : Check.function { emptyBlock with consts := .list nestedPool } = .ok () := by cbv
  obtain ⟨d, text, assembled⟩ : ∃ d text, Assembly.assemble Context.fresh
      { emptyBlock with consts := .list nestedPool } (.str Assembly.defaultUpvalue) = (d, .ok text) :=
    ⟨_, _, rfl⟩
  have compiled := compile_shipped checked Context.create_default assembled
  obtain ⟨c, header, written, pool, upvalues, -, headed, members, declared, -, blocks, -, -, numbered⟩ :=
    compile_rows compiled unbroken
  cases headed
  cases members
  cases declared
  obtain ⟨w, none, rfl, own, empty⟩ := List.map_eq_cons_iff.mp blocks
  cases List.map_eq_nil_iff.mp empty
  obtain ⟨label, code⟩ := w
  obtain ⟨rfl, items⟩ := Block.mk.inj own
  cases List.map_eq_nil_iff.mp items
  have plain : ∀ v ∈ nestedPool, v.Unbroken := by
    simp only [nestedPool, List.forall_mem_cons, Value.Unbroken]
    refine ⟨?_, ?_, ?_, List.forall_mem_nil _⟩
    · rintro _ ⟨⟩
      decide
    · rintro _ ⟨⟩
    · rintro _ ⟨⟩
  obtain ⟨constants, three, rows⟩ := numbered.mpr plain
  have block : Written.rows ⟨.str "entry", []⟩ = ["entry:", ".scope", ".endscope", ""] := by decide
  have upvalue : Assembly.defaultUpvalueLine (.str Assembly.defaultUpvalue) = "U0 = L0 R0" := by decide
  refine ⟨unbroken, text, compiled, constants, three, ?_⟩
  rw [rows, ← upvalue, ← block]
  rfl

/-- A text with a line feed is one constant and takes two rows. -/
def brokenPool : List Value := [.str "a\nb"]

theorem brokenPool_takes_two_rows :
    Function.Unbroken { emptyBlock with consts := .list brokenPool } (.str Assembly.defaultUpvalue) ∧
      ∃ text, (compile {} { emptyBlock with consts := .list brokenPool }).outcome = .ok text ∧
        Text.rows text = [".fn @anonymous", ".header", "", "", ".instruction", "entry:", ".scope",
          ".endscope", "", ".const", "K0 = \"a", "b\"", ".upvalue", "U0 = L0 R0", ".endfn"] := by
  have checked : Check.function { emptyBlock with consts := .list brokenPool } = .ok () := by cbv
  obtain ⟨d, assembled⟩ : ∃ d, Assembly.assemble Context.fresh
      { emptyBlock with consts := .list brokenPool } (.str Assembly.defaultUpvalue) =
        (d, .ok (String.intercalate "\n" [".fn @anonymous", ".header", "", "", ".instruction", "entry:",
          ".scope", ".endscope", "", ".const", "K0 = \"a\nb\"", ".upvalue", "U0 = L0 R0", ".endfn"])) :=
    ⟨_, rfl⟩
  refine ⟨emptyBlock_unbroken brokenPool, _, compile_shipped checked Context.create_default assembled, ?_⟩
  rw [Text.rows_intercalate (by simp)]
  decide

end BlockAsm
