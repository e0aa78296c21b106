import BlockAsm.Proofs.Layout

/-!
Occurrence suffixes. The default suffix is a mark and digits, up to the end of a text or up to a final
line feed. A text has at most one such part, so erasing the suffix takes that part away and nothing
else, wherever the search for it begins. In particular whether a name begins like those of scratch
registers can be told from its stem.
-/

namespace BlockAsm.Pattern

theorem testBit_mark (seen n m : Nat) :
    (seen ||| 1 <<< n).testBit m = (seen.testBit m || decide (m = n)) := by
  rw [Nat.testBit_or, Nat.one_shiftLeft, Nat.testBit_two_pow]
  simp [eq_comm]

/-- Dropping repetitions loses no point, if points that have as many characters left are the same. -/
theorem Point.mem_distinctFrom {ps : List Point}
    (same : ∀ p ∈ ps, ∀ q ∈ ps, p.left = q.left → p = q) (seen : Nat) (q : Point) :
    q ∈ distinctFrom seen ps ↔ q ∈ ps ∧ seen.testBit q.left = false := by
  induction ps generalizing seen with
  | nil => simp [distinctFrom]
  | cons p rest ih =>
    have tail := ih fun x hx y hy => same x (by simp [hx]) y (by simp [hy])
    unfold distinctFrom
    split
    · rename_i met
      rw [tail, List.mem_cons]
      constructor
      · exact fun ⟨later, unseen⟩ => ⟨.inr later, unseen⟩
      · rintro ⟨rfl | later, unseen⟩
        · rw [met] at unseen
          cases unseen
        · exact ⟨later, unseen⟩
    · rename_i unmet
      rw [List.mem_cons, List.mem_cons, tail, testBit_mark]
      simp only [Bool.or_eq_false_iff, decide_eq_false_iff_not]
      constructor
      · rintro (rfl | ⟨later, unseen, -⟩)
        · exact ⟨.inl rfl, by simpa using unmet⟩
        · exact ⟨.inr later, unseen⟩
      · rintro ⟨rfl | later, unseen⟩
        · exact .inl rfl
        · by_cases left : q.left = p.left
          · exact .inl (same q (by simp [later]) p (by simp) left)
          · exact .inr ⟨later, unseen, left⟩

/-- Points of one text that have as many characters left are the same. -/
theorem Point.mem_distinct (whole : List Char) {ps : List Point}
    (points : ∀ p ∈ ps, ∃ rest, rest <:+ whole ∧ p = front rest) (q : Point) :
    q ∈ distinct ps ↔ q ∈ ps := by
  have same : ∀ p ∈ ps, ∀ q ∈ ps, p.left = q.left → p = q := by
    intro p hp q hq left
    obtain ⟨r, suffixR, rfl⟩ := points p hp
    obtain ⟨s, suffixS, rfl⟩ := points q hq
    rw [List.IsSuffix.eq_of_length (List.suffix_of_suffix_length_le suffixR suffixS
      (Nat.le_of_eq left)) left]
  rw [distinct, mem_distinctFrom same]
  simp

theorem mem_reach {k : CharClass} {cs : List Char} {q : Point} :
    q ∈ reach k cs.length cs ↔ ∃ run rest, cs = run ++ rest ∧ (∀ c ∈ run, k.has c = true) ∧
      q = .front rest := by
  induction cs with
  | nil =>
    simp only [reach, List.length_nil, List.mem_singleton, List.nil_eq_append_iff]
    constructor
    · rintro rfl
      exact ⟨[], [], ⟨rfl, rfl⟩, nofun, rfl⟩
    · rintro ⟨_, _, ⟨rfl, rfl⟩, -, rfl⟩
      rfl
  | cons c rest ih =>
    have below : (c :: rest).length - 1 = rest.length := rfl
    rw [reach, List.mem_cons, below]
    constructor
    · rintro (rfl | further)
      · exact ⟨[], c :: rest, rfl, nofun, rfl⟩
      · split at further
        · rename_i here
          obtain ⟨run, after, rfl, each, rfl⟩ := ih.mp further
          exact ⟨c :: run, after, rfl, by simpa [here] using each, rfl⟩
        · cases further
    · rintro ⟨run, after, split, each, rfl⟩
      cases run with
      | nil =>
        left
        rw [List.nil_append] at split
        rw [← split]
        rfl
      | cons d run =>
        obtain ⟨rfl, rfl⟩ := List.cons.inj split
        right
        rw [if_pos (each c (by simp))]
        exact ih.mpr ⟨run, after, rfl, fun d hd => each d (by simp [hd]), rfl⟩

theorem mem_reach_drop {k : CharClass} {cs : List Char} {q : Point} :
    q ∈ (reach k cs.length cs).drop 1 ↔ ∃ run rest, cs = run ++ rest ∧ run ≠ [] ∧
      (∀ c ∈ run, k.has c = true) ∧ q = .front rest := by
  cases cs with
  | nil =>
    simp only [reach, List.drop_succ_cons, List.drop_nil, List.not_mem_nil, List.nil_eq_append_iff,
      false_iff]
    rintro ⟨run, rest, ⟨rfl, -⟩, some, -⟩
    exact some rfl
  | cons c rest =>
    have below : (c :: rest).length - 1 = rest.length := rfl
    rw [reach, List.drop_succ_cons, List.drop_zero, below]
    constructor
    · intro further
      split at further
      · rename_i here
        obtain ⟨run, after, rfl, each, rfl⟩ := mem_reach.mp further
        exact ⟨c :: run, after, rfl, List.cons_ne_nil c run, by simpa [here] using each, rfl⟩
      · cases further
    · rintro ⟨run, after, split, some, each, rfl⟩
      cases run with
      | nil => exact absurd rfl some
      | cons d run =>
        obtain ⟨rfl, rfl⟩ := List.cons.inj split
        rw [if_pos (each c (by simp))]
        exact mem_reach.mpr ⟨run, after, rfl, fun d hd => each d (by simp [hd]), rfl⟩

def IsMark (c : Char) : Prop := c = '_' ∨ c = '.' ∨ c = '#'

theorem not_isMark_of_isDigit {c : Char} (digit : Text.isDigit c = true) : ¬ IsMark c := by
  rintro (rfl | rfl | rfl) <;> revert digit <;> decide

/-- A mark and digits, and after them the end of the text or a final line feed. -/
structure Suffixed (cs : List Char) (mark : Char) (digits rest : List Char) : Prop where
  split : cs = mark :: (digits ++ rest)
  isMark : IsMark mark
  some : digits ≠ []
  digit : ∀ d ∈ digits, Text.isDigit d = true
  ending : rest = [] ∨ rest = ['\n']

namespace Suffixed

variable {cs digits rest : List Char} {mark : Char}

theorem isDigit_or_break (suffixed : Suffixed cs mark digits rest) {c : Char}
    (later : c ∈ digits ++ rest) : Text.isDigit c = true ∨ c = '\n' := by
  rcases List.mem_append.mp later with digit | last
  · exact .inl (suffixed.digit c digit)
  · rcases suffixed.ending with rfl | rfl
    · cases last
    · exact .inr (List.mem_singleton.mp last)

/-- No mark is a digit or a line feed, so the part after a mark holds no mark. -/
theorem not_isMark (suffixed : Suffixed cs mark digits rest) {c : Char}
    (later : c ∈ digits ++ rest) : ¬ IsMark c := by
  rcases suffixed.isDigit_or_break later with digit | rfl
  · exact not_isMark_of_isDigit digit
  · unfold IsMark
    decide

theorem rest_unique {otherMark : Char} {otherDigits otherRest : List Char}
    (first : Suffixed cs mark digits rest)
    (second : Suffixed cs otherMark otherDigits otherRest) : rest = otherRest := by
  have same : digits ++ rest = otherDigits ++ otherRest :=
    List.tail_eq_of_cons_eq (first.split.symm.trans second.split)
  -- Both parts end in the same character, and a digit is no line feed.
  have apart : ∀ xs ys : List Char, (∀ d ∈ xs, Text.isDigit d = true) → xs ≠ ys ++ ['\n'] := by
    rintro _ ys digit rfl
    exact absurd (digit '\n' (by simp)) (by decide)
  rcases first.ending with rfl | rfl <;> rcases second.ending with rfl | rfl
  · rfl
  · exact absurd (by simpa using same) (apart _ _ first.digit)
  · exact absurd (by simpa using same.symm) (apart _ _ second.digit)
  · rfl

end Suffixed

theorem has_marks (c : Char) :
    CharClass.has ⟨false, [.range '_' '_', .range '.' '.', .range '#' '#']⟩ c = true ↔ IsMark c := by
  have single : ∀ d, ClassMember.has (.range d d) c = decide (c = d) := fun d => by
    simpa [CharClass.single, CharClass.has] using CharClass.has_single d c
  simp [CharClass.has, single, IsMark]

theorem has_digits (c : Char) :
    CharClass.has ⟨false, [.digit]⟩ c = true ↔ Text.isDigit c = true := by
  simp [CharClass.has, ClassMember.has]

/-- Where a mark and digits can end. -/
theorem mem_ends_marked (whole : Nat) {cs : List Char} {q : Point} :
    q ∈ ((ends whole (.one ⟨false, [.range '_' '_', .range '.' '.', .range '#' '#']⟩)
        (.front cs)).flatMap (ends whole (.repeated (.one ⟨false, [.digit]⟩) 1 none))) ↔
      ∃ mark digits rest, cs = mark :: (digits ++ rest) ∧ IsMark mark ∧ digits ≠ [] ∧
        (∀ d ∈ digits, Text.isDigit d = true) ∧ q = .front rest := by
  cases cs with
  | nil =>
    simp only [ends, Point.front, List.flatMap_nil, List.not_mem_nil, false_iff]
    rintro ⟨mark, digits, rest, split, -⟩
    cases split
  | cons c tail =>
    have repeated : ends whole (.repeated (.one ⟨false, [.digit]⟩) 1 none) (.front tail) =
        ((reach ⟨false, [.digit]⟩ tail.length tail).drop 1).reverse := rfl
    have first : ends whole (.one ⟨false, [.range '_' '_', .range '.' '.', .range '#' '#']⟩)
        (.front (c :: tail)) =
          if CharClass.has ⟨false, [.range '_' '_', .range '.' '.', .range '#' '#']⟩ c = true then
            [.front tail] else [] := rfl
    rw [first]
    constructor
    · intro reached
      split at reached
      · rename_i marked
        rw [List.flatMap_singleton, repeated, List.mem_reverse, mem_reach_drop] at reached
        obtain ⟨run, rest, rfl, some, each, rfl⟩ := reached
        exact ⟨c, run, rest, rfl, (has_marks c).mp marked, some,
          fun d hd => (has_digits d).mp (each d hd), rfl⟩
      · cases reached
    · rintro ⟨mark, digits, rest, split, marked, some, each, rfl⟩
      obtain ⟨rfl, rfl⟩ := List.cons.inj split
      rw [if_pos ((has_marks c).mpr marked), List.flatMap_singleton, repeated, List.mem_reverse,
        mem_reach_drop]
      exact ⟨digits, rest, rfl, some, fun d hd => (has_digits d).mpr (each d hd), rfl⟩

theorem mem_ends_occurrence (whole : Nat) {cs : List Char} {q : Point} :
    q ∈ occurrence.ends whole (.front cs) ↔
      ∃ mark digits rest, Suffixed cs mark digits rest ∧ q = .front rest := by
  have finish : ∀ p : Point, ends whole .finish p =
      if p.rest = [] ∨ p.rest = ['\n'] then [p] else [] := fun _ => rfl
  have points : ∀ p ∈ (ends whole
      (.one ⟨false, [.range '_' '_', .range '.' '.', .range '#' '#']⟩) (.front cs)).flatMap
        (ends whole (.repeated (.one ⟨false, [.digit]⟩) 1 none)),
      ∃ rest, rest <:+ cs ∧ p = .front rest := by
    intro p reached
    obtain ⟨mark, digits, rest, rfl, -, -, -, rfl⟩ := (mem_ends_marked whole).mp reached
    exact ⟨rest, ⟨mark :: digits, rfl⟩, rfl⟩
  rw [occurrence, ends, ends, Point.mem_distinct cs, List.mem_flatMap]
  · simp only [Point.mem_distinct cs points, mem_ends_marked, finish]
    constructor
    · rintro ⟨p, ⟨mark, digits, rest, split, marked, some, each, rfl⟩, finished⟩
      split at finished
      · rename_i ending
        rw [List.mem_singleton.mp finished]
        exact ⟨mark, digits, rest, ⟨split, marked, some, each, ending⟩, rfl⟩
      · cases finished
    · rintro ⟨mark, digits, rest, ⟨split, marked, some, each, ending⟩, rfl⟩
      refine ⟨.front rest, ⟨mark, digits, rest, split, marked, some, each, rfl⟩, ?_⟩
      have finished : (Point.front rest).rest = [] ∨ (Point.front rest).rest = ['\n'] := ending
      rw [if_pos finished]
      exact List.mem_singleton.mpr rfl
  · intro p reached
    obtain ⟨r, member, finished⟩ := List.mem_flatMap.mp reached
    rw [finish] at finished
    split at finished
    · rw [List.mem_singleton.mp finished]
      exact points r ((Point.mem_distinct cs points r).mp member)
    · cases finished

/-- A match begins where a suffix does, and ends where it ends. -/
theorem match?_occurrence (whole : Nat) (cs : List Char) {q : Point} :
    occurrence.match? whole (.front cs) = some q ↔
      ∃ mark digits rest, Suffixed cs mark digits rest ∧ q = .front rest := by
  constructor
  · intro found
    exact (mem_ends_occurrence whole).mp (List.mem_of_find?_eq_some found)
  · rintro ⟨mark, digits, rest, suffixed, rfl⟩
    have reached := (mem_ends_occurrence whole (q := .front rest)).mpr ⟨_, _, _, suffixed, rfl⟩
    cases found : occurrence.match? whole (.front cs) with
    | some r =>
      obtain ⟨_, _, other, again, rfl⟩ :=
        (mem_ends_occurrence whole).mp (List.mem_of_find?_eq_some found)
      rw [suffixed.rest_unique again]
    | none =>
      have shorter : rest.length < cs.length := by
        rw [suffixed.split, List.length_cons, List.length_append]
        omega
      exact absurd (decide_eq_true shorter) (List.find?_eq_none.mp found _ reached)

def Unmarked (cs : List Char) : Prop :=
  ∀ part, part <:+ cs → ∀ mark digits rest, ¬ Suffixed part mark digits rest

theorem match?_eq_none {cs : List Char}
    (unmarked : ∀ mark digits rest, ¬ Suffixed cs mark digits rest) (whole : Nat) :
    occurrence.match? whole (.front cs) = none := by
  cases found : occurrence.match? whole (.front cs) with
  | none => rfl
  | some q =>
    obtain ⟨mark, digits, rest, suffixed, -⟩ := (match?_occurrence whole cs).mp found
    exact absurd suffixed (unmarked mark digits rest)

theorem unmarked_of_not_isMark {cs : List Char} (plain : ∀ c ∈ cs, ¬ IsMark c) : Unmarked cs := by
  intro part within mark digits rest suffixed
  apply plain mark _ suffixed.isMark
  apply within.subset
  rw [suffixed.split]
  exact List.mem_cons_self

theorem eraseFrom_of_unmarked {cs : List Char} (unmarked : Unmarked cs) (whole : Nat) {steps : Nat}
    (enough : cs.length ≤ steps) : occurrence.eraseFrom whole steps (.front cs) = cs := by
  induction steps generalizing cs with
  | zero =>
    rw [List.length_eq_zero_iff.mp (Nat.le_zero.mp enough)]
    rfl
  | succ steps ih =>
    rw [eraseFrom, match?_eq_none (unmarked cs List.suffix_rfl)]
    cases cs with
    | nil => rfl
    | cons c rest =>
      have later := ih (fun part within => unmarked part (within.trans (List.suffix_cons c rest)))
        (Nat.le_of_succ_le_succ enough)
      exact congrArg (c :: ·) later

/-- The part that is a suffix is taken away, however far it is from where the search begins. -/
theorem eraseFrom_of_suffixed {front part digits rest : List Char} {mark : Char}
    (suffixed : Suffixed part mark digits rest) (whole : Nat) {steps : Nat}
    (enough : (front ++ part).length ≤ steps) :
    occurrence.eraseFrom whole steps (.front (front ++ part)) = front ++ rest := by
  induction front generalizing steps with
  | nil =>
    rw [List.nil_append] at enough ⊢
    cases steps with
    | zero =>
      rw [List.length_eq_zero_iff.mp (Nat.le_zero.mp enough)] at suffixed
      cases suffixed.split
    | succ steps =>
      have found : occurrence.match? whole (.front part) = some (.front rest) :=
        (match?_occurrence whole part).mpr ⟨mark, digits, rest, suffixed, rfl⟩
      rw [eraseFrom, found]
      apply eraseFrom_of_unmarked
      · exact unmarked_of_not_isMark fun c hc => suffixed.not_isMark (List.mem_append_right _ hc)
      · rw [suffixed.split, List.length_cons, List.length_append] at enough
        omega
  | cons c front ih =>
    cases steps with
    | zero => simp at enough
    | succ steps =>
      -- A suffix that began here would hold the mark of the one that follows.
      have unmarked : ∀ m ds r, ¬ Suffixed (c :: front ++ part) m ds r := by
        intro m ds r other
        apply other.not_isMark _ suffixed.isMark
        rw [← List.tail_eq_of_cons_eq other.split, suffixed.split]
        simp
      rw [eraseFrom, match?_eq_none unmarked]
      exact congrArg (c :: ·) (ih (Nat.le_of_succ_le_succ enough))

theorem erase_of_unmarked {x : String} (unmarked : Unmarked x.toList) : occurrence.erase x = x := by
  have kept := eraseFrom_of_unmarked unmarked x.toList.length (Nat.le_refl _)
  exact (congrArg String.ofList kept).trans String.ofList_toList

theorem erase_of_suffixed {x : String} {front part digits rest : List Char} {mark : Char}
    (suffixed : Suffixed part mark digits rest) (split : x.toList = front ++ part) :
    occurrence.erase x = String.ofList (front ++ rest) := by
  rw [erase, split]
  exact congrArg String.ofList (eraseFrom_of_suffixed suffixed _ (Nat.le_refl _))

/-- A name is its own stem, or a suffix is taken away from it and something remains. -/
theorem stem_cases (x : String) : occurrence.stem x = x ∨
    ∃ front part mark digits rest, Suffixed part mark digits rest ∧ x.toList = front ++ part ∧
      (occurrence.stem x).toList = front ++ rest := by
  by_cases unmarked : Unmarked x.toList
  · left
    rw [stem, erase_of_unmarked unmarked]
    simp
  · unfold Unmarked at unmarked
    push Not at unmarked
    obtain ⟨part, ⟨front, split⟩, mark, digits, rest, suffixed⟩ := unmarked
    rw [stem, erase_of_suffixed suffixed split.symm]
    split
    · exact .inl rfl
    · exact .inr ⟨front, part, mark, digits, rest, suffixed, split.symm, by simp⟩

end BlockAsm.Pattern
