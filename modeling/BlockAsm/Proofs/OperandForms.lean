import BlockAsm.Proofs.DocumentFailures

/-!
The forms of an operand in a document. A text refers to an entry of a pool exactly if it is the pool's
letter and digits, of any script and possibly with a line feed at the end; every other text names a
register. So an operand can be read back from what is written for it, and its object form is read as
the same operand. The two forms convert numbers in different ways, which agree on decimal texts.
-/

namespace BlockAsm

namespace Text

def Denotes (digits : List Char) (n : Nat) : Prop :=
  ∃ values : List Nat, digits.map digitValue? = values.map some ∧
    n = Nat.ofDigits 10 values.reverse

theorem foldl_digits {digits : List Char} {values : List Nat}
    (each : digits.map digitValue? = values.map some) (start : Nat) :
    digits.foldl (fun n c => 10 * n + (digitValue? c).getD 0) start =
      start * 10 ^ digits.length + Nat.ofDigits 10 values.reverse := by
  induction digits generalizing values start with
  | nil =>
    have none : values = [] := by simpa using each.symm
    simp [none]
  | cons c rest ih =>
    cases values with
    | nil => simp at each
    | cons d values =>
      obtain ⟨first, others⟩ := List.cons.inj each
      have lengths : rest.length = values.length := by simpa using congrArg List.length others
      rw [List.foldl_cons, ih others, first, Option.getD_some, List.reverse_cons, Nat.ofDigits_append,
        Nat.ofDigits_singleton, List.length_reverse, List.length_cons, lengths]
      ring

theorem exists_values {digits : List Char} (each : ∀ c ∈ digits, isDigit c = true) :
    ∃ values : List Nat, digits.map digitValue? = values.map some := by
  refine ⟨digits.map fun c => (digitValue? c).getD 0, ?_⟩
  rw [List.map_map]
  apply List.map_congr_left
  intro c membership
  obtain ⟨d, found⟩ := Option.isSome_iff_exists.mp (each c membership)
  simp [found]

theorem denotes_iff {digits : List Char} {n : Nat} :
    Denotes digits n ↔ (∀ c ∈ digits, isDigit c = true) ∧ n = digitsValue digits := by
  have value : ∀ {values : List Nat}, digits.map digitValue? = values.map some →
      digitsValue digits = Nat.ofDigits 10 values.reverse := by
    intro values each
    rw [digitsValue, foldl_digits each, Nat.zero_mul, Nat.zero_add]
  constructor
  · rintro ⟨values, each, rfl⟩
    refine ⟨fun c membership => ?_, (value each).symm⟩
    have listed := List.mem_map_of_mem (f := digitValue?) membership
    rw [each] at listed
    obtain ⟨d, -, found⟩ := List.mem_map.mp listed
    rw [isDigit, ← found]
    rfl
  · rintro ⟨each, rfl⟩
    obtain ⟨values, paired⟩ := exists_values each
    exact ⟨values, paired, value paired⟩

theorem digitValue?_digitChar {d : Nat} (small : d < 10) :
    digitValue? (Nat.digitChar d) = some d := by
  interval_cases d <;> decide

theorem isDigit_of_mem_toDigits {n : Nat} {c : Char} (membership : c ∈ Nat.toDigits 10 n) :
    isDigit c = true := by
  induction n using Nat.strongRecOn with
  | ind n ih =>
    rw [Nat.toDigits_eq_if (by decide)] at membership
    have last : ∀ {d}, d < 10 → isDigit (Nat.digitChar d) = true := fun small => by
      rw [isDigit, digitValue?_digitChar small]
      rfl
    split at membership
    · rename_i small
      rw [List.mem_singleton.mp membership]
      exact last small
    · rcases List.mem_append.mp membership with earlier | final
      · exact ih (n / 10) (by omega) earlier
      · rw [List.mem_singleton.mp final]
        exact last (Nat.mod_lt n (by decide))

theorem digitsValue_toDigits (n : Nat) : digitsValue (Nat.toDigits 10 n) = n := by
  induction n using Nat.strongRecOn with
  | ind n ih =>
    rw [Nat.toDigits_eq_if (by decide)]
    split
    · rename_i small
      simp [digitsValue, digitValue?_digitChar small]
    · rw [digitsValue_append_singleton, ih (n / 10) (by omega),
        digitValue?_digitChar (Nat.mod_lt n (by decide)), Option.getD_some]
      omega

end Text

namespace Integer

theorem ungroup?_of_digits {cs : List Char} (some : cs ≠ [])
    (each : ∀ c ∈ cs, Text.isDigit c = true) : ungroup? cs = .some cs := by
  have underscore : Text.isDigit '_' ≠ true := by decide
  fun_induction ungroup? cs with
  | case1 => exact absurd rfl some
  | case2 => rfl
  | case3 c plain => exact absurd (each c (by simp)) plain
  | case4 c rest digit ih => exact absurd (each '_' (by simp)) underscore
  | case5 c rest plain => exact absurd (each c (by simp)) plain
  | case6 c rest several grouped digit ih =>
    rw [ih several fun d membership => each d (List.mem_cons_of_mem c membership), Option.map_some]
  | case7 c rest several grouped plain => exact absurd (each c (by simp)) plain

theorem trimPadding_of_plain {cs : List Char} (plain : ∀ c ∈ cs, ¬ Text.isPadding c = true) :
    Text.trimPadding cs = cs := by
  have kept : ∀ ds : List Char, (∀ c ∈ ds, ¬ Text.isPadding c = true) →
      ds.dropWhile Text.isPadding = ds := fun ds each =>
    List.dropWhile_eq_self_iff.mpr fun bound => each _ (List.getElem_mem bound)
  rw [Text.trimPadding, kept cs plain, kept cs.reverse (by simpa using plain), List.reverse_reverse]

theorem ofText?_repr {n : Nat} (few : n.repr.length ≤ maxDigits) : ofText? n.repr = some (n : Int) := by
  have plain : ∀ c ∈ Nat.toDigits 10 n, ¬ Text.isPadding c = true ∧ c ≠ '+' ∧ c ≠ '-' := by
    intro c membership
    have digit := Nat.isDigit_of_mem_toDigits (by decide) (by decide) membership
    have bounds : 48 ≤ c.toNat ∧ c.toNat ≤ 57 := Char.isDigit_iff_toNat.mp digit
    refine ⟨?_, ?_, ?_⟩
    · have unblank : Text.isBlank c = false := by
        simp [Text.isBlank]
        omega
      simp [Text.isPadding, unblank]
    · rintro rfl
      cases digit
    · rintro rfl
      cases digit
  have read : natural? (Nat.toDigits 10 n) = some n := by
    have digits := ungroup?_of_digits (Nat.toDigits_ne_nil (n := n) (b := 10))
      fun c membership => Text.isDigit_of_mem_toDigits membership
    have short : (Nat.toDigits 10 n).length ≤ maxDigits := by
      rwa [← Nat.toList_repr, String.length_toList]
    rw [natural?, digits]
    simp only [if_pos short, Text.digitsValue_toDigits]
  unfold ofText?
  rw [Nat.toList_repr, trimPadding_of_plain fun c membership => (plain c membership).1]
  split
  · rename_i rest shape
    exact absurd rfl (plain '+' (by rw [shape]; exact List.mem_cons_self)).2.1
  · rename_i rest shape
    exact absurd rfl (plain '-' (by rw [shape]; exact List.mem_cons_self)).2.2
  · rw [read]
    rfl

end Integer

namespace Document

/-- The two lists that an operand can refer to by number. -/
inductive Pool where
  | constants
  | upvalues
  deriving DecidableEq, Repr

namespace Pool

def letter : Pool → Char
  | .constants => 'K'
  | .upvalues => 'U'

/-- The kind that an object operand gives for the pool. -/
def kind : Pool → String
  | .constants => "const"
  | .upvalues => "up"

def entry : Pool → Value → Operand
  | .constants => .constant
  | .upvalues => .upvalue

end Pool

/-- A text that refers to an entry: the letter of the pool, digits, and possibly one line feed. -/
def Refers (pool : Pool) (s : String) (n : Nat) : Prop :=
  ∃ digits, digits ≠ [] ∧ Text.Denotes digits n ∧
    (s.toList = pool.letter :: digits ∨ s.toList = pool.letter :: digits ++ ['\n'])

theorem poolDigits?_eq_some {cs digits : List Char} :
    poolDigits? cs = some digits ↔ digits ≠ [] ∧ (∀ c ∈ digits, Text.isDigit c = true) ∧
      (cs = digits ∨ cs = digits ++ ['\n']) := by
  have break_plain : ¬ Text.isDigit '\n' = true := by decide
  unfold poolDigits?
  constructor
  · intro found
    have whole := List.takeWhile_append_dropWhile (p := Text.isDigit) (l := cs)
    simp only at found
    split at found
    · cases found
    · rename_i some
      split at found
      · rename_i ended
        cases found
        refine ⟨by simpa using some, fun c membership => List.mem_takeWhile_imp membership, ?_⟩
        rcases ended with nothing | feed
        · left
          rw [nothing, List.append_nil] at whole
          exact whole.symm
        · right
          rw [feed] at whole
          exact whole.symm
      · cases found
  · rintro ⟨some, each, rfl | rfl⟩
    · simp [List.takeWhile_eq_self_iff.mpr each, List.dropWhile_eq_nil_iff.mpr each, some]
    · simp [List.takeWhile_append_of_pos each, List.dropWhile_append_of_pos each, break_plain, some]

theorem refers_iff {pool : Pool} {s : String} {n : Nat} :
    Refers pool s n ↔ ∃ rest digits, s.toList = pool.letter :: rest ∧
      poolDigits? rest = some digits ∧ n = Text.digitsValue digits := by
  constructor
  · rintro ⟨digits, some, denoted, shape⟩
    obtain ⟨each, rfl⟩ := Text.denotes_iff.mp denoted
    rcases shape with shape | shape
    · exact ⟨_, digits, shape, poolDigits?_eq_some.mpr ⟨some, each, .inl rfl⟩, rfl⟩
    · exact ⟨_, digits, shape, poolDigits?_eq_some.mpr ⟨some, each, .inr rfl⟩, rfl⟩
  · rintro ⟨rest, digits, shape, found, rfl⟩
    obtain ⟨some, each, ended⟩ := poolDigits?_eq_some.mp found
    refine ⟨digits, some, Text.denotes_iff.mpr ⟨each, rfl⟩, ?_⟩
    rw [shape]
    rcases ended with rfl | rfl
    · exact .inl rfl
    · exact .inr rfl

theorem textOperand_of_letter {pool : Pool} {s : String} {rest : List Char}
    (shape : s.toList = pool.letter :: rest) :
    textOperand s = match poolDigits? rest with
      | some digits => (poolIndex digits).map pool.entry
      | none => .ok (.register (.str s)) := by
  unfold textOperand
  cases pool <;> rw [shape] <;> rfl

theorem textOperand_of_refers {pool : Pool} {s : String} {rest digits : List Char}
    (shape : s.toList = pool.letter :: rest) (found : poolDigits? rest = some digits)
    (few : digits.length ≤ Integer.maxDigits) :
    textOperand s = .ok (pool.entry (.int (Text.digitsValue digits))) := by
  rw [textOperand_of_letter shape, found]
  simp only [poolIndex, if_pos few]
  rfl

theorem length_digits_le {s : String} {letter : Char} {rest digits : List Char}
    (within : (Value.str s).Within) (shape : s.toList = letter :: rest)
    (found : poolDigits? rest = some digits) : digits.length ≤ Integer.maxDigits := by
  obtain ⟨-, each, ended⟩ := poolDigits?_eq_some.mp found
  refine within s .self digits ?_ each
  rw [shape]
  rcases ended with rfl | rfl
  · exact (List.suffix_cons _ _).isInfix
  · exact ⟨[letter], ['\n'], by simp⟩

/-- Any other text names a register, a dollar sign in front being dropped. -/
theorem textOperand_of_not_refers {s : String} (other : ∀ pool n, ¬ Refers pool s n) :
    textOperand s = .ok (registerNamed s.toList) := by
  by_cases lettered : ∃ pool rest, s.toList = Pool.letter pool :: rest
  · obtain ⟨pool, rest, shape⟩ := lettered
    have unread : poolDigits? rest = none := by
      rw [Option.eq_none_iff_forall_ne_some]
      intro digits found
      exact other pool _ (refers_iff.mpr ⟨rest, digits, shape, found, rfl⟩)
    have named : registerNamed s.toList = .register (.str s) := by
      rw [← String.ofList_toList (s := s), shape]
      cases pool <;> simp [registerNamed, Pool.letter]
    rw [textOperand_of_letter shape, unread, named]
  · unfold textOperand
    split
    · rename_i rest shape
      exact absurd ⟨.constants, rest, shape⟩ lettered
    · rename_i rest shape
      exact absurd ⟨.upvalues, rest, shape⟩ lettered
    · rfl

theorem registerNamed_dollar (x : String) :
    registerNamed ("$" ++ x).toList = .register (.str x) := by
  simp [registerNamed]

theorem registerNamed_plain {s : String} (plain : ∀ x, s ≠ "$" ++ x) :
    registerNamed s.toList = .register (.str s) := by
  unfold registerNamed
  split
  · rename_i rest shape
    refine absurd ?_ (plain (String.ofList rest))
    rw [← String.toList_inj]
    simpa using shape
  · rw [String.ofList_toList]

theorem not_refers_dollar (x : String) (pool : Pool) (n : Nat) : ¬ Refers pool ("$" ++ x) n := by
  rintro ⟨digits, -, -, shape⟩
  cases pool <;> simp [Pool.letter] at shape

/-- What is written for an operand: its pool's letter and a decimal number, or a dollar sign and its
name. -/
inductive Spells : String → Operand → Prop
  | entry (pool : Pool) {n : Nat} (few : n.repr.length ≤ Integer.maxDigits) :
      Spells (String.singleton pool.letter ++ n.repr) (pool.entry (.int n))
  | register (x : String) : Spells ("$" ++ x) (.register (.str x))

/-- The object form of an operand: its kind, and a number, the decimal text of one or a name. A register
without a name is named after its number. -/
inductive Describes (fields : Fields) : Operand → Prop
  | entry (pool : Pool) {n : Nat} (few : n.repr.length ≤ Integer.maxDigits)
      (kind : Table.get? fields "kind" = some (.str pool.kind))
      (index : Table.get? fields "idx" = some (.int n) ∨
        Table.get? fields "idx" = some (.str n.repr)) : Describes fields (pool.entry (.int n))
  | register {x : String} (kind : Table.get? fields "kind" = some (.str "reg"))
      (name : Table.get? fields "name" = some (.str x)) : Describes fields (.register (.str x))
  | numbered {n : Nat} (few : n.repr.length ≤ Integer.maxDigits)
      (kind : Table.get? fields "kind" = some (.str "reg"))
      (unnamed : Fields.read fields "name" = .null)
      (index : Table.get? fields "idx" = some (.int n)) :
      Describes fields (.register (.str ("R" ++ n.repr)))

theorem Spells.operand {t : String} {o : Operand} (spells : Spells t o) :
    operand (.str t) = .ok o := by
  cases spells with
  | entry pool few =>
    rename_i n
    have shape : (String.singleton pool.letter ++ n.repr).toList =
        pool.letter :: Nat.toDigits 10 n := by
      rw [String.toList_append, Nat.toList_repr, String.toList_singleton, List.singleton_append]
    have found : poolDigits? (Nat.toDigits 10 n) = some (Nat.toDigits 10 n) :=
      poolDigits?_eq_some.mpr ⟨Nat.toDigits_ne_nil, fun c => Text.isDigit_of_mem_toDigits, .inl rfl⟩
    rw [← String.length_toList, Nat.toList_repr] at few
    have read := textOperand_of_refers shape found few
    rwa [Text.digitsValue_toDigits] at read
  | register x =>
    have named := textOperand_of_not_refers (not_refers_dollar x)
    rwa [registerNamed_dollar] at named

theorem operandIndex_of_index {fields : Fields} {n : Nat} (few : n.repr.length ≤ Integer.maxDigits)
    (index : Table.get? fields "idx" = some (.int n) ∨
      Table.get? fields "idx" = some (.str n.repr)) : operandIndex fields = .ok n := by
  have nonneg : ¬ (n : Int) < 0 := by omega
  unfold operandIndex
  rcases index with number | text
  · simp only [number, if_neg nonneg]
  · simp only [text, Integer.ofText?_repr few, if_neg nonneg]

theorem read_of_get? {fields : Fields} {name : String} {v : Value}
    (found : Table.get? fields name = some v) : Fields.read fields name = v := by
  rw [Fields.read, found, Option.getD_some]

theorem Describes.operand {fields : Fields} {o : Operand} (described : Describes fields o) :
    operand (.object fields) = .ok o := by
  rw [Document.operand]
  cases described with
  | entry pool few kind index =>
    have number := operandIndex_of_index few index
    cases pool with
    | constants =>
      simp only [objectOperand, read_of_get? kind, Pool.kind, number]
      rfl
    | upvalues =>
      simp only [objectOperand, read_of_get? kind, Pool.kind, number]
      rfl
  | register kind name => simp only [objectOperand, read_of_get? kind, read_of_get? name]
  | numbered few kind unnamed index =>
    simp only [objectOperand, read_of_get? kind, unnamed, operandIndex_of_index few (.inl index)]
    rfl

/-- The texts of pool entries and of registers, told apart by their shape; and the forms of an operand,
which are all read as that operand. -/
theorem operand_forms :
    (∀ s : String, (Value.str s).Within →
      (∀ (pool : Pool) index, operand (.str s) = .ok (pool.entry index) ↔
        ∃ n : Nat, index = .int n ∧ Refers pool s n) ∧
      ((∀ pool n, ¬ Refers pool s n) →
        (∀ x, s = "$" ++ x → operand (.str s) = .ok (.register (.str x))) ∧
        ((∀ x, s ≠ "$" ++ x) → operand (.str s) = .ok (.register (.str s))))) ∧
    ∀ t o, Spells t o → operand (.str t) = .ok o ∧
      ∀ fields, Describes fields o → operand (.object fields) = operand (.str t) := by
  constructor
  · intro s within
    have read : ∀ {pool n}, Refers pool s n → operand (.str s) = .ok (pool.entry (.int n)) := by
      intro pool n refers
      obtain ⟨rest, digits, shape, found, rfl⟩ := refers_iff.mp refers
      exact textOperand_of_refers shape found (length_digits_le within shape found)
    refine ⟨fun pool index => ⟨fun accepted => ?_, ?_⟩, fun other => ?_⟩
    · by_cases refers : ∃ pool n, Refers pool s n
      · obtain ⟨found, n, refers⟩ := refers
        rw [read refers] at accepted
        refine ⟨n, ?_⟩
        cases pool <;> cases found <;> cases accepted <;> exact ⟨rfl, refers⟩
      · have named := textOperand_of_not_refers fun pool n refer => refers ⟨pool, n, refer⟩
        rw [operand, named] at accepted
        unfold registerNamed at accepted
        split at accepted <;> cases pool <;> cases accepted
    · rintro ⟨n, rfl, refers⟩
      exact read refers
    · have named : operand (.str s) = .ok (registerNamed s.toList) := textOperand_of_not_refers other
      rw [named]
      constructor
      · rintro x rfl
        rw [registerNamed_dollar]
      · intro plain
        rw [registerNamed_plain plain]
  · intro t o spells
    refine ⟨spells.operand, fun fields described => ?_⟩
    rw [spells.operand, described.operand]

theorem within_of_short {s : String} (short : s.length ≤ Integer.maxDigits) : (Value.str s).Within := by
  intro t part run inside _
  cases part
  rw [← String.length_toList] at short
  exact inside.length_le.trans short

/-- A digit of another script before a line feed, and an upvalue in its three forms. -/
theorem operand_forms_of_foreign_digit :
    (Value.str "K٣\n").Within ∧ Refers .constants "K٣\n" 3 ∧
      operand (.str "K٣\n") = .ok (.constant (.int 3)) ∧
      operand (.object [("idx", .str "12"), ("kind", .str "up")]) = operand (.str "U12") ∧
      operand (.object [("kind", .str "up"), ("idx", .int 12)]) = operand (.str "U12") ∧
      operand (.str "U12") = .ok (.upvalue (.int 12)) := by
  obtain ⟨texts, forms⟩ := operand_forms
  have within : (Value.str "K٣\n").Within := within_of_short (by decide)
  have refers : Refers .constants "K٣\n" 3 := ⟨['٣'], by decide, ⟨[3], by decide, by decide⟩, by decide⟩
  have spells : Spells "U12" (.upvalue (.int 12)) := .entry .upvalues (n := 12) (by decide)
  have text : Describes [("idx", .str "12"), ("kind", .str "up")] (.upvalue (.int 12)) :=
    .entry .upvalues (n := 12) (by decide) rfl (.inr rfl)
  have number : Describes [("kind", .str "up"), ("idx", .int 12)] (.upvalue (.int 12)) :=
    .entry .upvalues (n := 12) (by decide) rfl (.inl rfl)
  obtain ⟨read, described⟩ := forms _ _ spells
  exact ⟨within, refers, ((texts _ within).1 .constants (.int 3)).mpr ⟨3, rfl, refers⟩,
    described _ text, described _ number, read⟩

end Document

end BlockAsm
