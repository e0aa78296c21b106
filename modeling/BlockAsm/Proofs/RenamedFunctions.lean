import BlockAsm.Proofs.LoopNesting
import BlockAsm.Proofs.Occurrences
import BlockAsm.Proofs.RenamedCode

/-!
Compilation under other names. With the default suffix a function and its renaming compile to the same
text, or fail in the same block for reasons of the same class, whichever passes are switched on and
whatever is printed on the way. The listings that are printed quote names, but whether printing fails
does not depend on them.
-/

namespace BlockAsm

open Allocator

namespace Value

def text? : Value → Option String
  | .str x => some x
  | _ => none

def rename (ρ : String → String) : Value → Value
  | .str x => .str (ρ x)
  | v => v

theorem rename_of_not_text {v : Value} (nontext : ∀ x, v ≠ .str x) (ρ : String → String) :
    v.rename ρ = v := by
  cases v with
  | str x => exact absurd rfl (nontext x)
  | _ => rfl

theorem rename_congr {ρ σ : String → String} {v : Value} (same : ∀ x, v.text? = some x → ρ x = σ x) :
    v.rename ρ = v.rename σ := by
  cases v with
  | str x => simp only [rename, same x rfl]
  | _ => rfl

/-- Declared locals under other names; they become a list if something else enumerates them. -/
def renameLocals (ρ : String → String) (locals : Value) : Value :=
  match locals.members? with
  | some names => .list (names.map (rename ρ))
  | none => locals

theorem members?_renameLocals (ρ : String → String) (locals : Value) :
    (locals.renameLocals ρ).members? = locals.members?.map (List.map (rename ρ)) := by
  unfold renameLocals
  cases given : locals.members? with
  | none => exact given
  | some names => rfl

theorem truthy_renameLocals (ρ : String → String) (locals : Value) :
    (locals.renameLocals ρ).truthy = locals.truthy := by
  cases locals with
  | str s =>
    have empty : s.toList.isEmpty = s.isEmpty := by
      rw [Bool.eq_iff_iff, List.isEmpty_iff, String.isEmpty_iff, String.toList_eq_nil_iff]
    simp [renameLocals, members?, truthy, empty]
  | list items => simp [renameLocals, members?, truthy]
  | object fields => simp [renameLocals, members?, truthy]
  | _ => rfl

end Value

namespace Item

theorem rename_congr {ρ σ : String → String} {item : Item} (same : ∀ x ∈ item.names, ρ x = σ x) :
    item.rename ρ = item.rename σ := by
  cases item with
  | instruction i => exact congrArg Item.instruction (Instruction.rename_congr same)
  | other v => rfl

end Item

namespace Function

def rename (ρ : String → String) (f : Function) : Function :=
  { f with locals := f.locals.renameLocals ρ, blocks := f.blocks.map (Block.rename ρ) }

def localNames (f : Function) : List String := (f.locals.members?.getD []).filterMap Value.text?

def names (f : Function) : List String := f.localNames ++ f.blocks.flatMap Block.names

theorem rename_congr {ρ σ : String → String} {f : Function} (same : ∀ x ∈ f.names, ρ x = σ x) :
    f.rename ρ = f.rename σ := by
  have locals : f.locals.renameLocals ρ = f.locals.renameLocals σ := by
    unfold Value.renameLocals
    cases given : f.locals.members? with
    | none => rfl
    | some values =>
      simp only [Value.list.injEq]
      apply List.map_congr_left
      intro v listed
      apply Value.rename_congr
      intro x text
      apply same
      apply List.mem_append_left
      rw [localNames, given]
      exact List.mem_filterMap.mpr ⟨v, listed, text⟩
  have blocks : f.blocks.map (Block.rename ρ) = f.blocks.map (Block.rename σ) := by
    apply List.map_congr_left
    intro b listed
    have items : b.items.map (Item.rename ρ) = b.items.map (Item.rename σ) := by
      apply List.map_congr_left
      intro item within
      apply Item.rename_congr
      intro x named
      apply same
      apply List.mem_append_right
      exact List.mem_flatMap.mpr ⟨b, listed, List.mem_flatMap.mpr ⟨item, within, named⟩⟩
    rw [Block.rename, Block.rename, items]
  rw [rename, rename, locals, blocks]

end Function

section Passes

variable {stem : String → String} {r : Renaming stem}

theorem Allocator.Mirrors.seed {a b : Allocator} (m : a.Mirrors r b) (left : a.WellFormed)
    (right : b.WellFormed) (values : List Value)
    (covered : ∀ x, .str x ∈ values → x ∈ r.names) :
    (a.seed values).1.Mirrors r (b.seed (values.map (Value.rename r.map))).1 ∧
      Matches (· = ·) (a.seed values).2 (b.seed (values.map (Value.rename r.map))).2 := by
  induction values generalizing a b with
  | nil => exact ⟨m, .refl _⟩
  | cons v rest ih =>
    have others : ∀ x, .str x ∈ rest → x ∈ r.names := fun x hx => covered x (by simp [hx])
    by_cases text : ∃ x, v = .str x
    · obtain ⟨x, rfl⟩ := text
      have placed := (m.place (covered x (by simp))).2
      rw [List.map_cons, Value.rename, Allocator.seed, Allocator.seed, placeValue_str, placeValue_str]
      exact ih placed (left.place x) (right.place (r.map x)) others
    · obtain ⟨f, failed⟩ := exists_placeValue_error (not_exists.mp text)
      rw [List.map_cons, Value.rename_of_not_text (not_exists.mp text)]
      simp only [Allocator.seed, (failed a left).1, (failed b right).1]
      exact ⟨m, .error (.same f)⟩

theorem Check.item_rename (ρ : String → String) (label : Value) (i : Item) :
    Matches (· = ·) (Check.item label i) (Check.item label (i.rename ρ)) := by
  cases i with
  | other v => exact .refl _
  | instruction i =>
    have tag : (i.rename ρ).tag = i.tag := rfl
    have metadata : (i.rename ρ).metadata = i.metadata := rfl
    rw [Item.rename, Check.item, Check.item, tag, metadata]
    split
    · split
      · exact .error (.refused rfl rfl)
      · split
        · exact .refl _
        · exact .error (.refused rfl rfl)
    · exact .error (.refused rfl rfl)

theorem Check.items_rename (ρ : String → String) (label : Value) (items : List Item) :
    Matches (· = ·) (Check.items label items) (Check.items label (items.map (Item.rename ρ))) := by
  induction items with
  | nil => exact .refl _
  | cons i rest ih => exact (Check.item_rename ρ label i).bind fun _ _ _ => ih

theorem Check.blocks_rename (ρ : String → String) (seen : List Value.Key) (blocks : List Block) :
    Matches (· = ·) (Check.blocks seen blocks)
      (Check.blocks seen (blocks.map (Block.rename ρ))) := by
  induction blocks generalizing seen with
  | nil => exact .refl _
  | cons b rest ih =>
    have label : (b.rename ρ).label = b.label := rfl
    rw [List.map_cons, Check.blocks, Check.blocks, label]
    split
    · exact .error (.same _)
    · split
      · exact .error (.same _)
      · split
        · exact .error (.same _)
        · exact (Check.items_rename ρ b.label b.items).bind fun _ _ _ => ih _

theorem Check.function_rename (ρ : String → String) (f : Function) :
    Matches (· = ·) (Check.function f) (Check.function (f.rename ρ)) := by
  have pool : Check.pool (f.rename ρ) = Check.pool f := rfl
  have upvalues : Check.upvalues (f.rename ρ) = Check.upvalues f := rfl
  have none : (f.rename ρ).blocks.isEmpty = f.blocks.isEmpty := List.isEmpty_map
  unfold Check.function
  rw [pool, upvalues, none]
  split
  · exact .error (.refused rfl rfl)
  · apply (Matches.refl (Check.pool f)).bind
    rintro _ _ -
    apply (Matches.refl (Check.upvalues f)).bind
    rintro _ _ -
    exact Check.blocks_rename ρ [] f.blocks

theorem Context.localNames_renameLocals (ρ : String → String) (locals : Value) :
    Context.localNames (locals.renameLocals ρ) =
      (Context.localNames locals).map (List.map (Value.rename ρ)) := by
  unfold Context.localNames
  rw [Value.members?_renameLocals]
  cases given : locals.members? with
  | some names => rfl
  | none =>
    rw [Value.renameLocals, given]
    rfl

theorem Context.create_rename (r : Renaming Pattern.occurrence.stem) {f : Function}
    (covered : ∀ x ∈ f.localNames, x ∈ r.names) :
    Matches (fun c d => c.Mirrors r d ∧ c.allocator.WellFormed ∧ d.allocator.WellFormed)
      (Context.create (.str defaultSuffix) f.locals)
      (Context.create (.str defaultSuffix) (f.rename r.map).locals) := by
  have locals : (f.rename r.map).locals = f.locals.renameLocals r.map := rfl
  simp only [Context.create, Context.suffixPattern, Pattern.parse_defaultSuffix, locals,
    Context.localNames_renameLocals]
  cases given : Context.localNames f.locals with
  | error why => exact .error (.same why)
  | ok values =>
    have members : f.locals.members? = some values := by
      unfold Context.localNames at given
      split at given
      · cases given
        assumption
      · cases given
    have start := WellFormed.empty Pattern.occurrence.stem
    obtain ⟨mirrored, matched⟩ := (Mirrors.empty r).seed start start values (by
      intro x listed
      apply covered
      rw [Function.localNames, members]
      exact List.mem_filterMap.mpr ⟨.str x, listed, rfl⟩)
    have left := start.grows (seed_grows { stem := Pattern.occurrence.stem } values)
    have right := start.grows
      (seed_grows { stem := Pattern.occurrence.stem } (values.map (Value.rename r.map)))
    simp only [Except.map]
    rcases here : Allocator.seed { stem := Pattern.occurrence.stem } values with ⟨a, answer⟩
    rcases there : Allocator.seed { stem := Pattern.occurrence.stem }
      (values.map (Value.rename r.map)) with ⟨b, mirror⟩
    rw [here] at mirrored matched left
    rw [there] at mirrored matched right
    cases matched with
    | ok _ => exact .ok ⟨⟨mirrored, rfl⟩, left, right⟩
    | error alike => exact .error alike

theorem Assembly.assemble_rename {c d : Context} (m : c.Mirrors r d)
    (left : c.allocator.WellFormed) (right : d.allocator.WellFormed) {f : Function}
    (covered : ∀ b ∈ f.blocks, ∀ x ∈ b.names, x ∈ r.names) (storage : Value) :
    Matches (· = ·) (Assembly.assemble c f storage).2
      (Assembly.assemble d (f.rename r.map) storage).2 := by
  have document : ∀ header listing, Assembly.document (f.rename r.map) header listing storage =
      Assembly.document f header listing storage := fun _ _ => rfl
  rw [Assembly.assemble_snd, Assembly.assemble_snd]
  apply (Matches.refl (Assembly.headerText f.header)).bind
  rintro header _ rfl
  apply (Assembly.blockSection_mirrors m left right covered).bind
  rintro listing _ rfl
  rw [document]
  exact .refl _

/-- A function and its renaming, or one text. -/
inductive Stage.Paired (ρ : String → String) (f : Function) : Stage → Stage → Prop
  | function : Paired ρ f (.function f) (.function (f.rename ρ))
  | assembly (text : String) : Paired ρ f (.assembly text) (.assembly text)

theorem Pass.run_rename (r : Renaming Pattern.occurrence.stem) {f : Function}
    (covered : ∀ x ∈ f.names, x ∈ r.names) (config : PassConfig) (pass : Pass)
    (suffix : pass = .generate → config.suffix = .str defaultSuffix) :
    Matches (fun p q => Stage.Paired r.map f p.1 q.1) (pass.run f config).outcome
      (pass.run (f.rename r.map) config).outcome := by
  cases pass with
  | check =>
    simp only [Pass.run, Pass.runCheck, Report.outcome_bind]
    apply (Check.function_rename r.map f).bind
    rintro _ _ -
    exact .ok .function
  | generate =>
    have default := suffix rfl
    simp only [Pass.run, Pass.runGenerate, Report.outcome_bind, Report.ofExcept, Report.noteAll]
    cases given : config.options with
    | object options =>
      rw [PassConfig.suffix, PassConfig.option?, given] at default
      simp only [Config.asObject, Except.ok_bind, default]
      apply (Context.create_rename r fun x declared => covered x (List.mem_append_left _ declared)).bind
      rintro c d ⟨mirrored, left, right⟩
      apply (Assembly.assemble_rename mirrored left right _ _).bind
      · rintro text _ rfl
        exact .ok (.assembly text)
      · intro b listed x named
        exact covered x (List.mem_append_right _ (List.mem_flatMap.mpr ⟨b, listed, named⟩))
    | _ => exact .error (.same _)

end Passes

namespace Report

theorem outcome_printAll (lines : List String) : (Report.printAll lines).outcome = .ok () := by
  induction lines with
  | nil => rfl
  | cons line rest ih =>
    rw [Report.printAll, Report.outcome_andThen]
    exact ih

end Report

namespace Listing

theorem texts_rename (ρ : String → String) (values : List Value) :
    Matches (fun _ _ => True) (texts values) (texts (values.map (Value.rename ρ))) := by
  induction values with
  | nil => exact .ok trivial
  | cons v rest ih =>
    cases v with
    | str x => exact ih.map fun _ _ _ => trivial
    | _ => exact .error (.same _)

theorem localTexts_rename (ρ : String → String) (locals : Value) :
    Matches (fun _ _ => True) (localTexts locals) (localTexts (locals.renameLocals ρ)) := by
  unfold localTexts
  rw [Value.members?_renameLocals]
  cases given : locals.members? with
  | some names => exact texts_rename ρ names
  | none =>
    rw [Value.renameLocals, given]
    exact .error (.same _)

theorem printItems_rename (ρ : String → String) (items : List Item) :
    (printItems (items.map (Item.rename ρ))).outcome = (printItems items).outcome := by
  induction items with
  | nil => rfl
  | cons item rest ih =>
    cases item with
    | other v => rfl
    | instruction i => exact ih

theorem printBlocks_rename (ρ : String → String) (blocks : List Block) :
    (printBlocks (blocks.map (Block.rename ρ))).outcome = (printBlocks blocks).outcome := by
  induction blocks with
  | nil => rfl
  | cons b rest ih =>
    simp only [List.map_cons, printBlocks, Report.outcome_bind, ih]
    have items : (printItems (b.rename ρ).items).outcome = (printItems b.items).outcome :=
      printItems_rename ρ b.items
    rw [items]
    rfl

/-- What a listing of a function can fail of. -/
theorem outcome_printFunction (f : Function) : (printFunction f).outcome =
    poolSize f.consts >>= fun _ =>
      (if f.locals.truthy then (localTexts f.locals).map fun _ => () else .ok ()) >>= fun _ =>
        (printBlocks f.blocks).outcome := by
  have closed : (printBlocks f.blocks >>= fun _ => Report.print "").outcome =
      (printBlocks f.blocks).outcome := by
    rw [Report.outcome_bind]
    cases (printBlocks f.blocks).outcome <;> rfl
  -- What is printed before the locals does not fail.
  have named : (if f.locals.truthy = true then do
        let names ← Report.ofExcept (localTexts f.locals)
        Report.print ("locals: " ++ Value.commaSeparated names)
        printBlocks f.blocks
        Report.print ""
      else do
        printBlocks f.blocks
        Report.print "").outcome =
      (if f.locals.truthy then (localTexts f.locals).map fun _ => () else .ok ()) >>= fun _ =>
        (printBlocks f.blocks).outcome := by
    split
    · rw [Report.outcome_bind, Report.ofExcept]
      cases localTexts f.locals with
      | error why => rfl
      | ok names => exact closed
    · exact closed
  unfold printFunction
  rw [Report.outcome_bind, Report.ofExcept]
  cases poolSize f.consts with
  | error why => rfl
  | ok size => cases f.header.truthy <;> exact named

theorem printFunction_rename (ρ : String → String) (f : Function) :
    Matches (· = ·) (printFunction f).outcome (printFunction (f.rename ρ)).outcome := by
  have consts : (f.rename ρ).consts = f.consts := rfl
  have truthy : (f.rename ρ).locals.truthy = f.locals.truthy := f.locals.truthy_renameLocals ρ
  have blocks : (printBlocks (f.rename ρ).blocks).outcome = (printBlocks f.blocks).outcome :=
    printBlocks_rename ρ f.blocks
  rw [outcome_printFunction, outcome_printFunction, consts, truthy, blocks]
  apply (Matches.refl (poolSize f.consts)).bind
  rintro _ _ -
  have printed : Matches (· = ·) (printBlocks f.blocks).outcome (printBlocks f.blocks).outcome :=
    .refl _
  split
  · exact ((localTexts_rename ρ f.locals).map (S := (· = ·)) fun _ _ _ => rfl).bind
      fun _ _ _ => printed
  · exact printed

end Listing

namespace Pipeline

theorem outcome_printOwnMetrics (m : Metrics) : (printOwnMetrics m).outcome = .ok () := by
  have remarked : (Report.print "Diagnostics:" >>= fun _ =>
      Report.printAll (m.remarks.map ("  - " ++ ·))).outcome = .ok () :=
    Report.outcome_printAll _
  unfold printOwnMetrics
  cases m.counts.isEmpty <;> cases m.remarks.isEmpty
  · exact remarked
  · rfl
  · exact remarked
  · rfl

theorem outcome_printPassMetrics (pass : Pass) (config : PassConfig) (before : Nat) (result : Stage)
    (m : Metrics) : (printPassMetrics pass config before result m).outcome =
      (Config.asObject config.options).map fun _ => () := by
  unfold printPassMetrics
  simp only [Report.outcome_bind, Report.ofExcept]
  cases Config.asObject config.options with
  | error why => rfl
  | ok options =>
    cases result with
    | function f => exact outcome_printOwnMetrics m
    | assembly text => exact outcome_printOwnMetrics m

theorem printStage_rename {ρ : String → String} {f : Function} {result mirror : Stage}
    (paired : Stage.Paired ρ f result mirror) (pass : Pass) :
    Matches (· = ·) (printStage pass result).outcome (printStage pass mirror).outcome := by
  cases paired with
  | function => exact Listing.printFunction_rename ρ f
  | assembly text => exact .refl _

theorem review_rename {ρ : String → String} {f : Function} {result mirror : Stage}
    (paired : Stage.Paired ρ f result mirror) (p : Pipeline) (pass : Pass) (first second : Nat)
    (m n : Metrics) : Matches (· = ·) (p.review pass first result m).outcome
      (p.review pass second mirror n).outcome := by
  have printed := printStage_rename paired pass
  have staged : Matches (· = ·)
      (if p.printStages = true then printStage pass result else pure ()).outcome
      (if p.printStages = true then printStage pass mirror else pure ()).outcome := by
    split
    · exact printed
    · exact .refl _
  unfold review
  cases p.printMetrics with
  | false => exact staged
  | true =>
    rw [if_pos rfl, if_pos rfl, Report.outcome_bind, Report.outcome_bind, outcome_printPassMetrics,
      outcome_printPassMetrics]
    exact (Matches.refl _).bind fun _ _ _ => staged

variable (r : Renaming Pattern.occurrence.stem) {f : Function}
  (covered : ∀ x ∈ f.names, x ∈ r.names) {p : Pipeline}
  (suffix : (p.passConfig .generate).suffix = .str defaultSuffix)

include covered suffix

theorem runPass_rename (pass : Pass) :
    Matches (Stage.Paired r.map f) (p.runPass pass f).2.outcome
      (p.runPass pass (f.rename r.map)).2.outcome := by
  have ran := Pass.run_rename r covered (p.passConfig pass) pass (by
    rintro rfl
    exact suffix)
  simp only [runPass, Report.outcome_andThen]
  apply ran.bind
  rintro ⟨result, m⟩ ⟨mirror, n⟩ paired
  apply (review_rename paired p pass _ _ m n).bind
  rintro _ _ -
  exact .ok paired

theorem runStations_rename {before mirror : Stage} (paired : Stage.Paired r.map f before mirror)
    (stations : List Station) : Matches (Stage.Paired r.map f) (p.runStations before stations).2.outcome
      (p.runStations mirror stations).2.outcome := by
  induction stations generalizing before mirror with
  | nil => exact .ok paired
  | cons s rest ih =>
    cases enabled : (p.passConfig s.pass).enabled.truthy with
    | false =>
      rw [outcome_runStations_of_disabled before s rest enabled,
        outcome_runStations_of_disabled mirror s rest enabled]
      exact ih paired
    | true =>
      cases paired with
      | assembly text =>
        have refused : (p.runStations (.assembly text) (s :: rest)).2.outcome =
            .error (.passMismatch s.pass.name Stage.functionName Stage.assemblyName) := by
          rw [runStations, enabled]
          rfl
        rw [refused]
        exact .error (.same _)
      | function =>
        rw [outcome_runStations f s rest enabled, outcome_runStations (f.rename r.map) s rest enabled]
        exact (runPass_rename r covered suffix s.pass).bind fun _ _ after => ih after

theorem run_rename :
    Matches (· = ·) (p.run f).2.outcome (p.run (f.rename r.map)).2.outcome := by
  have announced : Matches (· = ·) (p.announce f).outcome (p.announce (f.rename r.map)).outcome := by
    unfold announce
    split
    · exact Listing.printFunction_rename r.map f
    · exact .refl _
  rw [outcome_run, outcome_run]
  apply announced.bind
  rintro _ _ -
  apply (runStations_rename r covered suffix .function p.stations).bind
  intro stage mirror paired
  cases paired with
  | assembly text => exact .refl _
  | function =>
    rw [outcome_conclude_function, outcome_conclude_function]
    exact .error (.same _)

end Pipeline

namespace Allocator

theorem isScratch_scratchName (n : Nat) : IsScratch (scratchName n) := by
  simp [IsScratch, scratchName]

/-- A text that ends before something foreign to it does not reach into it. -/
theorem prefix_append_iff {start front other : List Char}
    (foreign : ∀ c, other.head? = some c → c ∉ start) :
    start <+: front ++ other ↔ start <+: front := by
  constructor
  · intro reached
    rcases List.prefix_or_prefix_of_prefix reached (List.prefix_append front other) with
      within | ⟨more, rfl⟩
    · exact within
    · cases more with
      | nil => rw [List.append_nil]
      | cons c more =>
        obtain ⟨tail, rest⟩ := (List.prefix_append_right_inj front).mp reached
        exact absurd (by simp) (foreign c (by rw [← rest]; rfl))
  · exact fun within => within.trans (List.prefix_append front other)

/-- A suffix has nothing to do with how a name begins. -/
theorem isScratch_stem_iff (x : String) :
    IsScratch (Pattern.occurrence.stem x) ↔ IsScratch x := by
  rcases Pattern.stem_cases x with same | ⟨front, part, mark, digits, rest, suffixed, split, stem⟩
  · rw [same]
  · have marked : ∀ c, part.head? = some c → c ∉ "%tmp".toList := by
      intro c first
      rw [suffixed.split, List.head?_cons, Option.some.injEq] at first
      rcases suffixed.isMark with rfl | rfl | rfl <;> subst first <;> decide
    have broken : ∀ c, rest.head? = some c → c ∉ "%tmp".toList := by
      intro c first
      rcases suffixed.ending with rfl | rfl
      · cases first
      · cases first
        decide
    rw [IsScratch, IsScratch, stem, split, prefix_append_iff broken, prefix_append_iff marked]

theorem stem_ne_of_isScratch {x y : String} (scratch : IsScratch x) (plain : ¬ IsScratch y) :
    Pattern.occurrence.stem x ≠ Pattern.occurrence.stem y := by
  intro same
  apply plain
  rw [← isScratch_stem_iff, ← same, isScratch_stem_iff]
  exact scratch

end Allocator

/-- A change of the names of a function that keeps different names apart, makes none of them a scratch
name and keeps which of them have the same stem; no scratch name is among them. -/
structure Function.Renames (f : Function) (ρ : String → String) : Prop where
  injective : Set.InjOn ρ { x | x ∈ f.names }
  plain : ∀ x ∈ f.names, ¬ IsScratch x ∧ ¬ IsScratch (ρ x)
  stems : ∀ x ∈ f.names, ∀ y ∈ f.names,
    (Pattern.occurrence.stem (ρ x) = Pattern.occurrence.stem (ρ y) ↔
      Pattern.occurrence.stem x = Pattern.occurrence.stem y)

/-- The renaming of all of a function's names and of the scratch names, which stay. -/
def Function.Renames.extend {f : Function} {ρ : String → String} (renames : f.Renames ρ) :
    Renaming Pattern.occurrence.stem where
  names := { x | x ∈ f.names ∨ IsScratch x }
  map x := if IsScratch x then x else ρ x
  injective := by
    intro x hx y hy same
    simp only at same
    split at same <;> split at same
    · exact same
    · rename_i scratch plain
      exact absurd (same ▸ scratch) (renames.plain y (hy.resolve_right plain)).2
    · rename_i plain scratch
      exact absurd (same ▸ scratch) (renames.plain x (hx.resolve_right plain)).2
    · rename_i first second
      exact renames.injective (hx.resolve_right first) (hy.resolve_right second) same
  stems := by
    intro x hx y hy
    split <;> split
    · rfl
    · rename_i scratch plain
      have plainToo := (renames.plain y (hy.resolve_right plain)).2
      constructor
      · exact fun same => absurd same (stem_ne_of_isScratch scratch plainToo)
      · exact fun same => absurd same (stem_ne_of_isScratch scratch plain)
    · rename_i plain scratch
      have plainToo := (renames.plain x (hx.resolve_right plain)).2
      constructor
      · exact fun same => absurd same.symm (stem_ne_of_isScratch scratch plainToo)
      · exact fun same => absurd same.symm (stem_ne_of_isScratch scratch plain)
    · rename_i first second
      exact renames.stems x (hx.resolve_right first) y (hy.resolve_right second)
  scratch n := .inr (isScratch_scratchName n)
  map_scratch n := if_pos (isScratch_scratchName n)

/-- Compiling a function and its renaming gives the same text, or failures of one class in one block. -/
theorem compile_rename {settings : Settings}
    (suffix : ∀ p, settings.pipeline = .ok p →
      (p.passConfig .generate).suffix = .str defaultSuffix)
    {f : Function} {ρ : String → String} (renames : f.Renames ρ) :
    Matches (· = ·) (compile settings f).outcome (compile settings (f.rename ρ)).outcome := by
  have same : f.rename ρ = f.rename renames.extend.map := by
    apply Function.rename_congr
    intro x listed
    exact (if_neg (renames.plain x listed).1).symm
  rw [outcome_compile_eq, outcome_compile_eq, same]
  cases configured : settings.pipeline with
  | error why => exact .error (.same why)
  | ok p =>
    exact Pipeline.run_rename renames.extend (fun x listed => .inl listed) (suffix p configured)

/-- A loop over a declared local with two occurrences of its index, one of them a bare name, and a
return that takes a scratch register. -/
def counted : Function where
  consts := .list [.int 1, .int 2]
  locals := .list [.str "n"]
  blocks := [
    { label := .str "top"
      items := [.instruction (.enter "i_0" (.register (.str "n")) (.constant (.int 0))),
                .instruction { tag := .str "settabup"
                               args := [.upvalue (.int 0), .other (.str "i_1"), .constant (.int 1)] },
                .instruction (.next "i_0"),
                .instruction { tag := .str "return"
                               args := [.register (.str "i_1"), .constant (.int 1)] }] }]

/-- Other names for them, of which one looks like an occurrence. -/
def recounted : String → String
  | "n" => "limit#3"
  | "i_0" => "total"
  | "i_1" => "total.12"
  | x => x

theorem counted_renames : counted.Renames recounted := by
  have names : counted.names = ["n", "i_0", "n", "i_1", "i_0", "i_1"] := rfl
  have apart : ∀ x ∈ counted.names, ∀ y ∈ counted.names, recounted x = recounted y → x = y := by
    rw [names]
    decide
  refine ⟨fun x hx y hy => apart x hx y hy, ?_, ?_⟩
  · rw [names]
    decide
  · rw [names]
    decide

theorem compile_rename_counted :
    counted.Renames recounted ∧ ∃ text, (compile {} counted).outcome = .ok text ∧
      (compile {} (counted.rename recounted)).outcome = .ok text := by
  have suffix : ∀ p, Settings.pipeline {} = .ok p →
      (p.passConfig .generate).suffix = .str defaultSuffix := by
    rintro p ⟨⟩
    rfl
  have matched := compile_rename suffix counted_renames
  have checked : Check.function counted = .ok () := by cbv
  obtain ⟨c, created, rfl⟩ : ∃ c, Context.create (.str defaultSuffix) counted.locals = .ok c ∧
      c = { allocator := (Allocator.seed { stem := Pattern.occurrence.stem } [.str "n"]).1 } := by
    simp only [Context.create, Context.suffixPattern, Pattern.parse_defaultSuffix]
    exact ⟨_, rfl, rfl⟩
  obtain ⟨d, text, assembled⟩ : ∃ d text, Assembly.assemble
      { allocator := (Allocator.seed { stem := Pattern.occurrence.stem } [.str "n"]).1 } counted
      (.str Assembly.defaultUpvalue) = (d, .ok text) := ⟨_, _, rfl⟩
  have compiled := compile_shipped checked created assembled
  rw [compiled] at matched
  obtain ⟨_, _, ⟨⟩, renamed, rfl⟩ | ⟨_, _, ⟨⟩, -⟩ := matched.cases
  exact ⟨counted_renames, text, compiled, renamed⟩

end BlockAsm
