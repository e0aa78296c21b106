import BlockAsm.Proofs.Occurrences

/-!
Stems by looking from the end. Searching a name for the default suffix from its front, with every way to
match it tried at each character, comes to the same as one walk over the name from its end: past a final
line feed, past digits, to a mark. Both take away the one mark with digits that ends the name, and of
several only the last; both keep the line feed, and a name of which nothing would remain.
-/

namespace BlockAsm

structure OccurrenceSuffix where
  mark : Char
  digits : List Char
  isMark : Pattern.IsMark mark
  present : digits ≠ []
  digit : ∀ d ∈ digits, Text.isDigit d = true

def OccurrenceSuffix.text (o : OccurrenceSuffix) : String := String.ofList (o.mark :: o.digits)

/-- What may stand after a suffix: nothing, or a final line feed. -/
inductive Ending where
  | bare
  | lineFeed
  deriving DecidableEq, Repr

namespace Ending

def text : Ending → String
  | .bare => ""
  | .lineFeed => "\n"

theorem toList_text (e : Ending) : e.text.toList = [] ∨ e.text.toList = ['\n'] := by
  cases e with
  | bare => exact .inl rfl
  | lineFeed => exact .inr rfl

theorem exists_text {rest : List Char} (ending : rest = [] ∨ rest = ['\n']) :
    ∃ e : Ending, e.text.toList = rest := by
  obtain rfl | rfl := ending
  · exact ⟨.bare, rfl⟩
  · exact ⟨.lineFeed, rfl⟩

end Ending

namespace OccurrenceSuffix

theorem toList_text (o : OccurrenceSuffix) : o.text.toList = o.mark :: o.digits :=
  String.toList_ofList

theorem text_ne_empty (o : OccurrenceSuffix) : o.text ≠ "" := by
  intro none
  have listed := o.toList_text
  rw [none] at listed
  cases listed

theorem suffixed (o : OccurrenceSuffix) (e : Ending) :
    Pattern.Suffixed (o.text ++ e.text).toList o.mark o.digits e.text.toList where
  split := by rw [String.toList_append, o.toList_text, List.cons_append]
  isMark := o.isMark
  some := o.present
  digit := o.digit
  ending := e.toList_text

end OccurrenceSuffix

/-- The name does not end in a suffix, with or without a line feed after it. -/
def Unsuffixed (name : String) : Prop :=
  ∀ front (o : OccurrenceSuffix) (e : Ending), name ≠ front ++ o.text ++ e.text

theorem suffix_cases (name : String) : Unsuffixed name ∨
    ∃ front, ∃ o : OccurrenceSuffix, ∃ e : Ending, name = front ++ o.text ++ e.text := by
  by_cases unsuffixed : Unsuffixed name
  · exact .inl unsuffixed
  · unfold Unsuffixed at unsuffixed
    push Not at unsuffixed
    exact .inr unsuffixed

theorem Unsuffixed.ne_append {name : String} (unsuffixed : Unsuffixed name)
    {front digits rest : List Char} {mark : Char} (isMark : Pattern.IsMark mark)
    (present : digits ≠ []) (digit : ∀ d ∈ digits, Text.isDigit d = true)
    (ending : rest = [] ∨ rest = ['\n']) :
    name.toList ≠ front ++ (mark :: digits ++ rest) := by
  intro split
  obtain ⟨e, rfl⟩ := Ending.exists_text ending
  apply unsuffixed (String.ofList front) ⟨mark, digits, isMark, present, digit⟩ e
  apply String.toList_inj.mp
  simp only [split, String.toList_append, OccurrenceSuffix.toList_text, String.toList_ofList,
    List.append_assoc]

namespace Pattern

theorem stem_of_suffixed (front : String) (o : OccurrenceSuffix) (e : Ending) :
    occurrence.stem (front ++ o.text ++ e.text) =
      if front ++ e.text = "" then front ++ o.text ++ e.text else front ++ e.text := by
  have split : (front ++ o.text ++ e.text).toList = front.toList ++ (o.text ++ e.text).toList := by
    simp only [String.toList_append, List.append_assoc]
  have erased : occurrence.erase (front ++ o.text ++ e.text) = front ++ e.text := by
    rw [erase_of_suffixed (o.suffixed e) split, String.ofList_append, String.ofList_toList,
      String.ofList_toList]
  simp only [stem, erased, String.isEmpty_iff]

theorem stem_of_unsuffixed {name : String} (unsuffixed : Unsuffixed name) :
    occurrence.stem name = name := by
  have unmarked : Unmarked name.toList := by
    rintro part ⟨front, split⟩ mark digits rest suffixed
    have listed : name.toList = front ++ (mark :: digits ++ rest) := by
      rw [← split, suffixed.split, List.cons_append]
    exact unsuffixed.ne_append suffixed.isMark suffixed.some suffixed.digit suffixed.ending listed
  simp only [stem, erase_of_unmarked unmarked, ite_self]

end Pattern

namespace OccurrenceSuffix

instance : DecidablePred Pattern.IsMark :=
  fun c => inferInstanceAs (Decidable (c = '_' ∨ c = '.' ∨ c = '#'))

def cutEnding : List Char → Ending × List Char
  | [] => (.bare, [])
  | c :: back => if c = '\n' then (.lineFeed, back) else (.bare, c :: back)

/-- What comes after digits and a mark in a reversed text, if it begins with them. At least one digit is
needed unless some were met. -/
def beforeMark (met : Bool) : List Char → Option (List Char)
  | [] => none
  | c :: back =>
    if Text.isDigit c then beforeMark true back
    else if met = true ∧ Pattern.IsMark c then some back
    else none

def strip (name : String) : String :=
  let (e, back) := cutEnding name.toList.reverse
  match beforeMark false back with
  | none => name
  | some front =>
    let short := String.ofList front.reverse ++ e.text
    if short = "" then name else short

theorem append_of_cutEnding {cs back : List Char} {e : Ending} (cut : cutEnding cs = (e, back)) :
    cs = e.text.toList ++ back := by
  unfold cutEnding at cut
  split at cut
  · cases cut
    rfl
  · split at cut
    · rename_i feed
      cases cut
      exact congrArg (· :: back) feed
    · cases cut
      rfl

theorem cutEnding_append (e : Ending) {c : Char} (other : c ≠ '\n') (back : List Char) :
    cutEnding (e.text.toList ++ c :: back) = (e, c :: back) := by
  cases e with
  | bare => exact if_neg other
  | lineFeed => simp [Ending.text, cutEnding]

theorem beforeMark_eq_some {met : Bool} {back front : List Char} :
    beforeMark met back = some front ↔ ∃ digits mark, back = digits ++ mark :: front ∧
      (∀ d ∈ digits, Text.isDigit d = true) ∧ Pattern.IsMark mark ∧
      (met = true ∨ digits ≠ []) := by
  induction back generalizing met with
  | nil =>
    unfold beforeMark
    constructor
    · intro found
      cases found
    · rintro ⟨digits, mark, split, -⟩
      simp at split
  | cons c back ih =>
    unfold beforeMark
    by_cases digit : Text.isDigit c = true
    · rw [if_pos digit, ih]
      constructor
      · rintro ⟨digits, mark, rfl, each, marked, -⟩
        exact ⟨c :: digits, mark, rfl, by simpa [digit] using each, marked, .inr (by simp)⟩
      · rintro ⟨digits, mark, split, each, marked, -⟩
        -- The mark is not the first character, since that is a digit.
        cases digits with
        | nil =>
          obtain ⟨rfl, -⟩ := List.cons.inj split
          exact absurd marked (Pattern.not_isMark_of_isDigit digit)
        | cons d digits =>
          obtain ⟨-, rfl⟩ := List.cons.inj split
          exact ⟨digits, mark, rfl, fun x hx => each x (by simp [hx]), marked, .inl rfl⟩
    · rw [if_neg digit]
      constructor
      · intro found
        split at found
        · rename_i ready
          cases found
          exact ⟨[], c, rfl, List.forall_mem_nil _, ready.2, .inl ready.1⟩
        · cases found
      · rintro ⟨digits, mark, split, each, marked, ready⟩
        cases digits with
        | nil =>
          obtain ⟨rfl, rfl⟩ := List.cons.inj split
          have met := ready.resolve_right fun more => more rfl
          exact if_pos ⟨met, marked⟩
        | cons d digits =>
          obtain ⟨rfl, -⟩ := List.cons.inj split
          exact absurd (each c (by simp)) digit

theorem strip_of_suffixed (front : String) (o : OccurrenceSuffix) (e : Ending) :
    strip (front ++ o.text ++ e.text) =
      if front ++ e.text = "" then front ++ o.text ++ e.text else front ++ e.text := by
  have reversed : (front ++ o.text ++ e.text).toList.reverse =
      e.text.toList ++ (o.digits.reverse ++ o.mark :: front.toList.reverse) := by
    cases e <;> simp [toList_text, Ending.text]
  have cut : cutEnding (front ++ o.text ++ e.text).toList.reverse =
      (e, o.digits.reverse ++ o.mark :: front.toList.reverse) := by
    rw [reversed]
    cases back : o.digits.reverse with
    | nil => exact absurd (List.reverse_eq_nil_iff.mp back) o.present
    | cons d digits =>
      apply cutEnding_append e
      rintro rfl
      have digit := o.digit '\n' (List.mem_reverse.mp (back ▸ List.mem_cons_self))
      revert digit
      decide
  have found : beforeMark false (o.digits.reverse ++ o.mark :: front.toList.reverse) =
      some front.toList.reverse := by
    apply beforeMark_eq_some.mpr
    refine ⟨o.digits.reverse, o.mark, rfl, ?_, o.isMark, .inr ?_⟩
    · intro d listed
      exact o.digit d (List.mem_reverse.mp listed)
    · exact fun none => o.present (List.reverse_eq_nil_iff.mp none)
  simp only [strip, cut, found, List.reverse_reverse, String.ofList_toList]

theorem strip_of_unsuffixed {name : String} (unsuffixed : Unsuffixed name) : strip name = name := by
  rcases cut : cutEnding name.toList.reverse with ⟨e, back⟩
  cases found : beforeMark false back with
  | none => simp only [strip, cut, found]
  | some front =>
    obtain ⟨digits, mark, rfl, digit, marked, ready⟩ := beforeMark_eq_some.mp found
    have present : digits.reverse ≠ [] := by
      intro none
      exact ready.resolve_left Bool.false_ne_true (List.reverse_eq_nil_iff.mp none)
    have listed : name.toList = front.reverse ++ (mark :: digits.reverse ++ e.text.toList) := by
      have whole := congrArg List.reverse (append_of_cutEnding cut)
      rw [List.reverse_reverse] at whole
      rw [whole]
      cases e <;> simp [Ending.text]
    refine absurd listed (unsuffixed.ne_append marked present ?_ e.toList_text)
    intro d within
    exact digit d (List.mem_reverse.mp within)

end OccurrenceSuffix

/-- The stems that the default suffix gives are the names without the suffix that ends them. A name is
kept if nothing else would remain, and a final line feed stays. Of several suffixes the last goes. -/
theorem default_stem_eq_strip : ∃ suffix, Pattern.parse defaultSuffix = .ok suffix ∧
    (∀ name, suffix.stem name = OccurrenceSuffix.strip name) ∧
    (∀ front (o : OccurrenceSuffix) (e : Ending), suffix.stem (front ++ o.text ++ e.text) =
      if front ++ e.text = "" then front ++ o.text ++ e.text else front ++ e.text) ∧
    (∀ name, Unsuffixed name → suffix.stem name = name) ∧
    (∀ x (o : OccurrenceSuffix), x ≠ "" → suffix.stem (x ++ o.text) = x) ∧
    ∀ x (o last : OccurrenceSuffix), suffix.stem (x ++ o.text ++ last.text) = x ++ o.text := by
  have bare : ∀ x (o : OccurrenceSuffix), x ≠ "" → Pattern.occurrence.stem (x ++ o.text) = x := by
    intro x o present
    have stripped := Pattern.stem_of_suffixed x o .bare
    simpa only [Ending.text, String.append_empty, present, if_false] using stripped
  refine ⟨Pattern.occurrence, Pattern.parse_defaultSuffix, ?_, Pattern.stem_of_suffixed,
    fun _ => Pattern.stem_of_unsuffixed, bare, ?_⟩
  · intro name
    obtain unsuffixed | ⟨front, o, e, rfl⟩ := suffix_cases name
    · rw [Pattern.stem_of_unsuffixed unsuffixed, OccurrenceSuffix.strip_of_unsuffixed unsuffixed]
    · rw [Pattern.stem_of_suffixed, OccurrenceSuffix.strip_of_suffixed]
  · intro x o last
    apply bare
    intro none
    exact o.text_ne_empty (String.append_eq_empty_iff.mp none).2

/-- Marks among digits, a foreign digit, a line feed that stays, and names that are kept. -/
theorem default_stem_eq_strip_at_names : ∃ suffix, Pattern.parse defaultSuffix = .ok suffix ∧
    suffix.stem "i_1.2#3" = "i_1.2" ∧ suffix.stem "i.٣" = "i" ∧ suffix.stem "_1\n" = "\n" ∧
    suffix.stem "_1" = "_1" ∧ suffix.stem "i_1\n\n" = "i_1\n\n" ∧ suffix.stem "x10" = "x10" := by
  obtain ⟨suffix, read, walked, -, kept, bare, -⟩ := default_stem_eq_strip
  have unsuffixed : Unsuffixed "x10" := by
    intro front o e same
    have within : o.mark ∈ "x10".toList := by
      rw [same]
      simp [OccurrenceSuffix.toList_text]
    have unmarked : ∀ c ∈ "x10".toList, ¬ Pattern.IsMark c := by simp [Pattern.IsMark]
    exact unmarked o.mark within o.isMark
  have third : suffix.stem "i_1.2#3" = "i_1.2" := by
    apply bare "i_1.2" ⟨'#', ['3'], .inr (.inr rfl), List.cons_ne_nil _ _, ?_⟩
    · simp
    · intro d listed
      rw [List.mem_singleton.mp listed]
      rfl
  refine ⟨suffix, read, third, ?_, ?_, ?_, ?_, kept "x10" unsuffixed⟩
  all_goals
    rw [walked]
    rfl

end BlockAsm
