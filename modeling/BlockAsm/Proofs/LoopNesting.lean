import BlockAsm.Proofs.LoopRanges

/-!
The register of a nested loop. The group of a loop is found through the stem of its index, when the
loop is entered and again when it is stepped. Between the two it is the same group as long as no loop
of that stem is entered inside. So loops that nest address one register each, if those open at one time
have different stems; different names are not enough, since occurrences of one name share their stem.
-/

namespace BlockAsm

/-- The open loops after an item, the innermost first. A loop is closed under its index, and `key`
tells the loops apart that are open together. -/
def nest (key : String → String) (opened : List String) (item : Item) : Option (List String) :=
  match item.opcode? with
  | some .forprep =>
    match item.index? with
    | some index => if key index ∈ opened.map key then none else some (index :: opened)
    | none => none
  | some .forloop =>
    match opened with
    | innermost :: outer => if item.index? = some innermost then some outer else none
    | [] => none
  | _ => some opened

def openLoops (key : String → String) (opened : List String) (items : List Item) :
    Option (List String) :=
  items.foldlM (nest key) opened

section Nesting

variable {key : String → String}

theorem openLoops_append (opened : List String) (first second : List Item) :
    openLoops key opened (first ++ second) =
      (openLoops key opened first).bind fun later => openLoops key later second :=
  List.foldlM_append

theorem openLoops_cons_eq_some {opened left : List String} {item : Item} {items : List Item} :
    openLoops key opened (item :: items) = some left ↔
      ∃ next, nest key opened item = some next ∧ openLoops key next items = some left := by
  rw [openLoops, List.foldlM_cons]
  exact Option.bind_eq_some_iff

theorem nest_forprep {opened next : List String} {item : Item}
    (tagged : item.opcode? = some .forprep) (nested : nest key opened item = some next) :
    ∃ index, item.index? = some index ∧ key index ∉ opened.map key ∧ next = index :: opened := by
  simp only [nest, tagged] at nested
  split at nested
  · rename_i index named
    split at nested
    · cases nested
    · rename_i new
      cases nested
      exact ⟨index, named, new, rfl⟩
  · cases nested

theorem nest_forloop {opened next : List String} {item : Item}
    (tagged : item.opcode? = some .forloop) (nested : nest key opened item = some next) :
    ∃ index, item.index? = some index ∧ opened = index :: next := by
  simp only [nest, tagged] at nested
  split at nested
  · split at nested
    · rename_i named
      cases nested
      exact ⟨_, named, rfl⟩
    · cases nested
  · cases nested

theorem nest_other {item : Item} (entering : item.opcode? ≠ some .forprep)
    (stepping : item.opcode? ≠ some .forloop) (opened : List String) :
    nest key opened item = some opened := by
  unfold nest
  split
  · exact absurd ‹_› entering
  · exact absurd ‹_› stepping
  · rfl

/-- An item that nests by itself does so inside other loops without touching them. -/
theorem nest_inside {inner outer left all : List String} {item : Item}
    (alone : nest key inner item = some left) (inside : nest key (inner ++ outer) item = some all) :
    all = left ++ outer ∧ ∀ index, item.opcode? = some .forprep → item.index? = some index →
      key index ∉ outer.map key := by
  by_cases entering : item.opcode? = some .forprep
  · obtain ⟨index, named, -, rfl⟩ := nest_forprep entering alone
    obtain ⟨other, renamed, new, rfl⟩ := nest_forprep entering inside
    rw [named] at renamed
    cases renamed
    refine ⟨rfl, ?_⟩
    intro other _ same
    rw [named] at same
    cases same
    rw [List.map_append, List.mem_append, not_or] at new
    exact new.2
  · refine ⟨?_, fun index entered => absurd entered entering⟩
    by_cases stepping : item.opcode? = some .forloop
    · obtain ⟨index, named, rfl⟩ := nest_forloop stepping alone
      obtain ⟨other, renamed, same⟩ := nest_forloop stepping inside
      exact (List.cons.inj same).2.symm
    · rw [nest_other entering stepping] at alone inside
      cases alone
      cases inside
      rfl

/-- Items that nest by themselves do so inside other loops without touching them, and enter no loop
that one of these would be confused with. -/
theorem openLoops_inside {inner outer left all : List String} {items : List Item}
    (alone : openLoops key inner items = some left)
    (inside : openLoops key (inner ++ outer) items = some all) :
    all = left ++ outer ∧ ∀ item ∈ items, ∀ index, item.opcode? = some .forprep →
      item.index? = some index → key index ∉ outer.map key := by
  induction items generalizing inner with
  | nil =>
    cases alone
    cases inside
    exact ⟨rfl, by simp⟩
  | cons item items ih =>
    obtain ⟨next, nested, aloneAfter⟩ := openLoops_cons_eq_some.mp alone
    obtain ⟨nextAll, nestedAll, insideAfter⟩ := openLoops_cons_eq_some.mp inside
    obtain ⟨rfl, entered⟩ := nest_inside nested nestedAll
    obtain ⟨last, enteredAfter⟩ := ih aloneAfter insideAfter
    refine ⟨last, ?_⟩
    intro other membership
    rcases List.mem_cons.mp membership with rfl | later
    · exact entered
    · exact enteredAfter other later

/-- Around a body that nests by itself, the step closes the loop of the entry, and the body enters no
loop that it would be confused with. -/
theorem openLoops_around {before body after : List Item} {entry close : Item}
    (nested : openLoops key [] (before ++ entry :: (body ++ close :: after)) ≠ none)
    (enters : entry.opcode? = some .forprep) (closes : close.opcode? = some .forloop)
    (balanced : openLoops key [] body = some []) :
    ∃ index, entry.index? = some index ∧ close.index? = some index ∧
      ∀ item ∈ body, ∀ inner, item.opcode? = some .forprep → item.index? = some inner →
        key inner ≠ key index := by
  obtain ⟨final, nested⟩ := Option.ne_none_iff_exists'.mp nested
  rw [openLoops_append] at nested
  obtain ⟨outer, -, nested⟩ := Option.bind_eq_some_iff.mp nested
  obtain ⟨opened, entered, nested⟩ := openLoops_cons_eq_some.mp nested
  obtain ⟨index, entryNamed, -, rfl⟩ := nest_forprep enters entered
  rw [openLoops_append] at nested
  obtain ⟨inside, bodyRun, nested⟩ := Option.bind_eq_some_iff.mp nested
  obtain ⟨rest, closed, -⟩ := openLoops_cons_eq_some.mp nested
  obtain ⟨rfl, apart⟩ := openLoops_inside balanced bodyRun
  obtain ⟨other, closeNamed, same⟩ := nest_forloop closes closed
  cases same
  refine ⟨index, entryNamed, closeNamed, ?_⟩
  intro item membership inner entering innerNamed confused
  exact apart item membership inner entering innerNamed (by simp [confused])

end Nesting

namespace Context

open Allocator

theorem lower_group?_of_other_stem {c : Context} (wf : c.allocator.WellFormed) {item : Item}
    {stem : String} (apart : ∀ index, item.opcode? = some .forprep → item.index? = some index →
      c.allocator.stem index ≠ stem) :
    (c.lower item).1.allocator.group? stem = c.allocator.group? stem := by
  apply lower_group?_of_not_entered wf
  intro index entered
  exact apart index entered.1 entered.2.1

theorem lowerEach_group?_of_other_stem {c : Context} (wf : c.allocator.WellFormed)
    {items : List Item} {stem : String}
    (apart : ∀ item ∈ items, ∀ index, item.opcode? = some .forprep → item.index? = some index →
      c.allocator.stem index ≠ stem) :
    (c.lowerEach items).allocator.group? stem = c.allocator.group? stem := by
  induction items generalizing c with
  | nil => rfl
  | cons item items ih =>
    obtain ⟨wf', stems, -⟩ := lower_groups wf item
    have step := lower_group?_of_other_stem wf (apart item (by simp))
    rw [lowerEach_cons, ih wf', step]
    intro other later
    rw [stems]
    exact apart other (by simp [later])

theorem group?_after_body {c : Context} (wf : c.allocator.WellFormed) {entry : Item}
    {body : List Item} {index : String} {base : Int}
    (recorded : (c.lower entry).1.allocator.groups =
      Table.set c.allocator.groups (.ofText (c.allocator.stem index)) base)
    (apart : ∀ item ∈ body, ∀ inner, item.opcode? = some .forprep → item.index? = some inner →
      c.allocator.stem inner ≠ c.allocator.stem index) :
    (c.lowerEach (entry :: body)).allocator.group? (c.allocator.stem index) = some base := by
  obtain ⟨wfEntry, stems, -⟩ := lower_groups wf entry
  rw [← stems] at apart
  rw [lowerEach_cons, ← stems, lowerEach_group?_of_other_stem wfEntry apart, stems,
    group?_of_groups_set recorded, if_pos rfl]

theorem emitted_step {c : Context} {item : Item} {index : String} {base : Int}
    (tagged : item.opcode? = some .forloop) (named : item.index? = some index)
    (succeeded : (c.lower item).2 = .ok ())
    (based : c.allocator.group? (c.allocator.stem index) = some base) :
    ∃ start, c.emitted item = [.code ⟨.forloop, [.register base], [start]⟩] := by
  obtain ⟨o, start, rest, given, lowered⟩ := lower_of_forloop tagged succeeded
  have register : o = .register (.str index) := by
    rw [Item.index?, given] at named
    split at named
    · rename_i same
      cases named
      exact (List.cons.inj same).1
    · cases named
  have found : c.allocator.groupBase o = .ok (some base) := by
    simp only [register, groupBase, nameText, Except.map, based]
  refine ⟨start, emitted_eq ?_⟩
  rw [lowered, stepLoop, found]
  rfl

/-- In a run whose loops nest, and in which the loops open at one time have different stems, a loop is
stepped at the register it was entered with. -/
theorem step_addresses_entry {label : Value} {c d : Context} {items : List Item}
    (seeded : c.Seeded) (lowered : c.lowerAll label items = (d, .ok ()))
    (nested : openLoops c.allocator.stem [] items ≠ none) {before body after : List Item}
    {entry close : Item} (around : items = before ++ entry :: (body ++ close :: after))
    (enters : entry.opcode? = some .forprep) (closes : close.opcode? = some .forloop)
    (balanced : openLoops c.allocator.stem [] body = some []) :
    ∃ slot copies target start,
      (c.lowerEach before).emitted entry =
        copies ++ [.code ⟨.forprep, [.register slot], [target]⟩] ∧
      (c.lowerEach (before ++ entry :: body)).emitted close =
        [.code ⟨.forloop, [.register slot], [start]⟩] := by
  have wf := seeded.wellFormed
  have wfBefore := lowerEach_wellFormed wf before
  obtain ⟨-, each⟩ := lowerAll_ok lowered
  have entryOk := each before entry (body ++ close :: after) around
  have closeOk := each (before ++ entry :: body) close after (by simp [around])
  rw [around] at nested
  obtain ⟨index, entryNamed, closeNamed, apart⟩ := openLoops_around nested enters closes balanced
  obtain ⟨name, limit, step, target, named, lines, groups⟩ := lower_entry wfBefore enters entryOk
  rw [entryNamed] at named
  cases named
  rw [← lowerEach_stem wf before] at apart
  have based := group?_after_body wfBefore groups apart
  rw [← lowerEach_append, lowerEach_stem wf before,
    ← lowerEach_stem wf (before ++ entry :: body)] at based
  obtain ⟨start, stepped⟩ := emitted_step closes closeNamed closeOk based
  exact ⟨_, _, target, start, lines, stepped⟩

end Context

def Instruction.next (index : String) : Instruction :=
  { tag := .str "for_loop", args := [.register (.str index)],
    metadata := .object [("body", .str "top")] }

/-- Two loops without any other items, the second inside the first. -/
def nestedLoops (outer inner : String) : List Item :=
  [.instruction (.enter outer (.constant (.int 2)) (.constant (.int 3))),
    .instruction (.enter inner (.constant (.int 2)) (.constant (.int 3))),
    .instruction (.next inner), .instruction (.next outer)]

namespace Context

theorem step_addresses_entry_of_outer_loop :
    fresh.Seeded ∧
      openLoops fresh.allocator.stem [] (nestedLoops "i" "j") ≠ none ∧
      ∃ slot copies target start,
        fresh.emitted (.instruction (.enter "i" (.constant (.int 2)) (.constant (.int 3)))) =
          copies ++ [.code ⟨.forprep, [.register slot], [target]⟩] ∧
        (fresh.lowerEach ((nestedLoops "i" "j").take 3)).emitted (.instruction (.next "i")) =
          [.code ⟨.forloop, [.register slot], [start]⟩] := by
  have nested : openLoops fresh.allocator.stem [] (nestedLoops "i" "j") ≠ none := by decide
  have lowered : fresh.lowerAll (.str "entry") (nestedLoops "i" "j") =
      (fresh.lowerEach (nestedLoops "i" "j"), .ok ()) := rfl
  have around : nestedLoops "i" "j" = [] ++
      .instruction (.enter "i" (.constant (.int 2)) (.constant (.int 3))) ::
        ([.instruction (.enter "j" (.constant (.int 2)) (.constant (.int 3))),
          .instruction (.next "j")] ++ [.instruction (.next "i")]) := rfl
  exact ⟨fresh_seeded, nested, step_addresses_entry fresh_seeded lowered nested around rfl rfl
    (by decide)⟩

/-- Two occurrences of one index have different names and one stem: the outer loop is entered at one
register and stepped at that of the inner loop. -/
theorem nested_occurrences_share_register :
    ∃ d, fresh.lowerAll (.str "entry") (nestedLoops "i_0" "i_1") = (d, .ok ()) ∧
      openLoops id [] (nestedLoops "i_0" "i_1") = some [] ∧
      openLoops id [] (((nestedLoops "i_0" "i_1").drop 1).take 2) = some [] ∧
      fresh.emitted (.instruction (.enter "i_0" (.constant (.int 2)) (.constant (.int 3)))) =
        [.code ⟨.loadk, [.register 1, .constant (.int 2)], []⟩,
          .code ⟨.loadk, [.register 2, .constant (.int 3)], []⟩,
          .code ⟨.forprep, [.register 0], [.str "exit"]⟩] ∧
      (fresh.lowerEach ((nestedLoops "i_0" "i_1").take 3)).emitted (.instruction (.next "i_0")) =
        [.code ⟨.forloop, [.register 4], [.str "top"]⟩] :=
  ⟨_, rfl, by decide, by decide, rfl, rfl⟩

end Context

end BlockAsm
