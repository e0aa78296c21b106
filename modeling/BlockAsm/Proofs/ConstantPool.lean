import BlockAsm.Proofs.Compiled

/-!
The constant pool can be read back from a document. Line breaks inside a text are written as they are,
so a constant is not delimited by its line; but no escaped text holds a quote that is not escaped, and
no number holds a line break, so each constant ends where it can be seen to end. Hence documents that
differ in their pools only are different, as far as the pools hold texts and integers.
-/

namespace BlockAsm

namespace Text

/-- Up to the first stop, two texts that go on alike are alike. -/
theorem append_stop_inj {stop : Char} {xs ys r u : List Char} (hx : stop ∉ xs) (hy : stop ∉ ys)
    (same : xs ++ stop :: r = ys ++ stop :: u) : xs = ys ∧ r = u := by
  induction xs generalizing ys with
  | nil =>
    cases ys with
    | nil => exact ⟨rfl, List.tail_eq_of_cons_eq same⟩
    | cons y ys =>
      have first : stop = y := List.head_eq_of_cons_eq same
      exact absurd (first ▸ List.mem_cons_self) hy
  | cons x xs ih =>
    cases ys with
    | nil =>
      have first : x = stop := List.head_eq_of_cons_eq same
      exact absurd (first ▸ List.mem_cons_self) hx
    | cons y ys =>
      obtain ⟨rfl, rest⟩ := List.cons.inj same
      obtain ⟨rfl, after⟩ := ih (List.not_mem_of_not_mem_cons hx) (List.not_mem_of_not_mem_cons hy)
        rest
      exact ⟨rfl, after⟩

def terminated (lines : List String) : List Char := lines.flatMap fun l => l.toList ++ ['\n']

theorem terminated_cons (line : String) (rest : List String) :
    terminated (line :: rest) = line.toList ++ '\n' :: terminated rest := by
  simp [terminated]

theorem terminated_append (first second : List String) :
    terminated (first ++ second) = terminated first ++ terminated second := by
  simp [terminated]

theorem toList_joined {lines : List String} (some : lines ≠ []) :
    (String.intercalate "\n" lines).toList ++ ['\n'] = terminated lines := by
  induction lines with
  | nil => exact absurd rfl some
  | cons line rest ih =>
    cases rest with
    | nil => simp [terminated]
    | cons next rest =>
      rw [String.intercalate_cons_cons, terminated_cons, ← ih (List.cons_ne_nil _ _)]
      simp

theorem constantChar_append_inj {c d : Char} {r u : List Char}
    (same : constantChar c ++ r = constantChar d ++ u) : c = d ∧ r = u := by
  unfold constantChar at same
  split at same <;> split at same
  · simpa using same
  · -- A backslash that is not escaped begins no other character.
    rename_i plain
    simp only [List.cons_append, List.nil_append, List.cons.injEq] at same
    simp [← same.1] at plain
  · rename_i plain _
    simp only [List.cons_append, List.nil_append, List.cons.injEq] at same
    simp [same.1] at plain
  · simpa using same

theorem constantChar_ne_quote (c : Char) (r u : List Char) : constantChar c ++ r ≠ '"' :: u := by
  unfold constantChar
  split
  · simp
  · rename_i plain
    intro same
    simp only [List.cons_append, List.nil_append, List.cons.injEq] at same
    simp [same.1] at plain

/-- An escaped text ends at the first quote that is not escaped. -/
theorem escaped_append_inj {s t r u : List Char}
    (same : s.flatMap constantChar ++ '"' :: r = t.flatMap constantChar ++ '"' :: u) :
    s = t ∧ r = u := by
  induction s generalizing t with
  | nil =>
    cases t with
    | nil => exact ⟨rfl, List.tail_eq_of_cons_eq same⟩
    | cons d t =>
      rw [List.flatMap_cons, List.append_assoc] at same
      exact absurd same.symm (constantChar_ne_quote _ _ _)
  | cons c s ih =>
    rw [List.flatMap_cons, List.append_assoc] at same
    cases t with
    | nil => exact absurd same (constantChar_ne_quote _ _ _)
    | cons d t =>
      rw [List.flatMap_cons, List.append_assoc] at same
      obtain ⟨rfl, rest⟩ := constantChar_append_inj same
      obtain ⟨rfl, after⟩ := ih rest
      exact ⟨rfl, after⟩

end Text

namespace Integer

/-- The text of an integer is a sign, if it is negative, and digits. -/
theorem mem_repr {n : Int} {c : Char} (membership : c ∈ n.repr.toList) :
    c = '-' ∨ c.isDigit = true := by
  have digits : ∀ {m : Nat}, c ∈ m.repr.toList → c.isDigit = true := fun {m} found => by
    rw [Nat.toList_repr] at found
    exact Nat.isDigit_of_mem_toDigits (by decide) (by decide) found
  cases n with
  | ofNat m => exact .inr (digits membership)
  | negSucc m =>
    have signed : (Int.negSucc m).repr.toList = '-' :: (m + 1).repr.toList := by
      simp [Int.repr]
    rw [signed, List.mem_cons] at membership
    exact membership.imp_right digits

theorem notMem_repr {c : Char} (sign : c ≠ '-') (digit : c.isDigit = false) (n : Int) :
    c ∉ n.repr.toList := by
  intro membership
  rcases mem_repr membership with same | found
  · exact sign same
  · exact absurd found (by simp [digit])

theorem repr_injective : Function.Injective Int.repr := by
  have unsigned : ∀ m n : Nat, m.repr ≠ "-" ++ n.repr := by
    intro m n same
    have first : '-' ∈ m.repr.toList := by simp [same]
    rw [Nat.toList_repr] at first
    cases Nat.isDigit_of_mem_toDigits (by decide) (by decide) first
  intro m n same
  cases m with
  | ofNat m =>
    cases n with
    | ofNat n => exact congrArg Int.ofNat (Nat.repr_inj.mp same)
    | negSucc n => exact absurd same (unsigned m _)
  | negSucc m =>
    cases n with
    | ofNat n => exact absurd same.symm (unsigned n _)
    | negSucc n =>
      have counts : (m + 1).repr = (n + 1).repr := by simpa [Int.repr] using same
      exact congrArg Int.negSucc (by simpa using Nat.repr_inj.mp counts)

end Integer

/-- Texts and integers, the constants that are told apart by what is written for them. -/
inductive Value.Plain : Value → Prop
  | str (s : String) : Plain (.str s)
  | int (n : Int) : Plain (.int n)

namespace Assembly

/-- A constant that a line break follows is seen where it ends. -/
theorem constantText_append_inj {v w : Value} (hv : v.Plain) (hw : w.Plain) {r u : List Char}
    (same : (constantText v).toList ++ '\n' :: r = (constantText w).toList ++ '\n' :: u) :
    v = w ∧ r = u := by
  have quoted : ∀ s, (constantText (.str s)).toList =
      '"' :: (s.toList.flatMap Text.constantChar ++ ['"']) := fun s => by
    simp [constantText, scalarText, Value.plain, Text.escapeConstant]
  have bare : ∀ n, (constantText (.int n)).toList = n.repr.toList := fun _ => rfl
  have unquoted : ∀ {c n}, c ∈ (constantText (.int n)).toList → c ≠ '"' ∧ c ≠ '\n' := by
    intro c n membership
    rw [bare] at membership
    rcases Integer.mem_repr membership with rfl | digit
    · decide
    · constructor <;> rintro rfl <;> cases digit
  -- A text begins with a quote and a number does not.
  have apart : ∀ s n a b, (constantText (.str s)).toList ++ '\n' :: a ≠
      (constantText (.int n)).toList ++ '\n' :: b := by
    intro s n a b same
    rw [quoted] at same
    cases written : (constantText (.int n)).toList with
    | nil =>
      rw [written] at same
      simp at same
    | cons c rest =>
      rw [written] at same
      have first : '"' = c := List.head_eq_of_cons_eq same
      exact (unquoted (n := n) (by rw [written]; exact List.mem_cons_self)).1 first.symm
  cases hv with
  | str s =>
    cases hw with
    | int n => exact absurd same (apart s n r u)
    | str t =>
      rw [quoted, quoted] at same
      have inside : s.toList.flatMap Text.constantChar ++ '"' :: '\n' :: r =
          t.toList.flatMap Text.constantChar ++ '"' :: '\n' :: u := by simpa using same
      obtain ⟨texts, rest⟩ := Text.escaped_append_inj inside
      exact ⟨by rw [String.toList_inj.mp texts], List.tail_eq_of_cons_eq rest⟩
  | int m =>
    cases hw with
    | str s => exact absurd same.symm (apart s m u r)
    | int n =>
      obtain ⟨numbers, rest⟩ := Text.append_stop_inj (fun found => (unquoted found).2 rfl)
        (fun found => (unquoted found).2 rfl) same
      exact ⟨by rw [Integer.repr_injective (String.toList_inj.mp numbers)], rest⟩

theorem constantLines_inj {index : Nat} {pool other : List Value} (hp : ∀ v ∈ pool, v.Plain)
    (ho : ∀ v ∈ other, v.Plain)
    (same : Text.terminated (constantLines index pool) =
      Text.terminated (constantLines index other)) : pool = other := by
  induction pool generalizing other index with
  | nil =>
    cases other with
    | nil => rfl
    | cons w other => simp [constantLines, Text.terminated] at same
  | cons v pool ih =>
    cases other with
    | nil => simp [constantLines, Text.terminated] at same
    | cons w other =>
      simp only [constantLines, constantLine, Text.terminated_cons, String.toList_append,
        List.append_assoc, List.append_cancel_left_eq] at same
      obtain ⟨rfl, rest⟩ := constantText_append_inj (hp v (by simp)) (ho w (by simp)) same
      rw [ih (fun x hx => hp x (by simp [hx])) (fun x hx => ho x (by simp [hx])) rest]

/-- A document is its pool between two parts that do not depend on it. -/
theorem document_of_pool {f : Function} {header : String} {listing : List Line} {storage : Value}
    {pool : List Value} {text : String}
    (written : document { f with consts := .list pool } header listing storage = .ok text) :
    ∃ body upvalues, lineTexts listing = .ok body ∧ upvalueSection f.upvalues storage = .ok upvalues ∧
      text.toList ++ ['\n'] =
        Text.terminated (openingLines f header ++ ".instruction" :: body ++ [".const"]) ++
          (Text.terminated (constantLines 0 pool) ++
            Text.terminated (".upvalue" :: upvalues ++ [".endfn"])) := by
  simp only [document, Except.bind_eq_ok] at written
  obtain ⟨constants, pooled, upvalues, declared, body, listed, joined⟩ := written
  cases pooled
  cases joined
  refine ⟨body, upvalues, listed, declared, ?_⟩
  rw [Text.toList_joined (by simp [openingLines]), ← Text.terminated_append,
    ← Text.terminated_append]
  simp [openingLines]

end Assembly

/-- Documents of two functions that differ in their pools only tell the pools apart, whatever the texts
in them hold. -/
theorem compile_pool_inj {settings : Settings} {f : Function} {pool other : List Value}
    (hp : ∀ v ∈ pool, v.Plain) (ho : ∀ v ∈ other, v.Plain) {text : String}
    (compiled : (compile settings { f with consts := .list pool }).outcome = .ok text)
    (alike : (compile settings { f with consts := .list other }).outcome = .ok text) :
    pool = other := by
  rw [outcome_compile_eq, Except.bind_eq_ok] at compiled alike
  obtain ⟨p, made, ran⟩ := compiled
  obtain ⟨q, again, ranOther⟩ := alike
  cases made.symm.trans again
  obtain ⟨c, d, created, assembled⟩ := Pipeline.run_generated ran
  obtain ⟨c', d', created', assembled'⟩ := Pipeline.run_generated ranOther
  cases created.symm.trans created'
  unfold Assembly.assemble at assembled assembled'
  split at assembled
  · cases assembled
  · rename_i header headed
    split at assembled
    · rename_i e listing blocks
      simp only [headed, blocks] at assembled'
      obtain ⟨body, upvalues, listed, declared, parts⟩ :=
        Assembly.document_of_pool (congrArg Prod.snd assembled)
      obtain ⟨body', upvalues', listed', declared', parts'⟩ :=
        Assembly.document_of_pool (congrArg Prod.snd assembled')
      cases listed.symm.trans listed'
      cases declared.symm.trans declared'
      rw [parts, List.append_cancel_left_eq, List.append_cancel_right_eq] at parts'
      exact Assembly.constantLines_inj hp ho parts'
    · cases assembled

def splitPool : List Value := [.str "a", .str "b"]

/-- A pool of one text that holds the end of an entry and a second one. -/
def forgedPool : List Value := [.str "a\"\nK1 = \"b"]

theorem compile_pool_inj_at_splitPool :
    ∃ text, ∀ pool ∈ [splitPool, forgedPool],
      (compile {} { emptyBlock with consts := .list pool }).outcome = .ok text ↔
        pool = splitPool := by
  have plain : ∀ pool ∈ [splitPool, forgedPool], ∀ v ∈ pool, v.Plain := by
    simp only [splitPool, forgedPool, List.mem_cons, List.not_mem_nil, or_false, forall_eq_or_imp,
      forall_eq]
    exact ⟨⟨.str _, .str _⟩, .str _⟩
  have checked : Check.function { emptyBlock with consts := .list splitPool } = .ok () := by cbv
  obtain ⟨d, text, assembled⟩ : ∃ d text, Assembly.assemble Context.fresh
      { emptyBlock with consts := .list splitPool } (.str Assembly.defaultUpvalue) =
        (d, .ok text) := ⟨_, _, rfl⟩
  have compiled := compile_shipped checked Context.create_default assembled
  refine ⟨text, fun pool listed => ⟨fun alike => ?_, ?_⟩⟩
  · exact compile_pool_inj (plain pool listed) (plain splitPool (by simp)) alike compiled
  · rintro rfl
    exact compiled

end BlockAsm
