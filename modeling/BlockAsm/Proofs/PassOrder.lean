import BlockAsm.Proofs.BlockCuts
import BlockAsm.Proofs.KeySpellings

/-!
Which lists of passes give a text. A pass that is switched off has no part in a run, and one that is
switched on takes what the one before it left. Where both passes accept the function, a check leaves it
as it is, a generating pass makes its text, and nothing takes a text: a run is a fold of these steps over
the passes that are switched on. So the order of the passes decides whether the run gives the text,
stops at the first pass after a generating one, or is left with the function. What is printed on the way
does not matter, since a function that both passes accept can be listed.
-/

namespace BlockAsm

theorem Allocator.WellFormed.exists_texts_of_seed {a b : Allocator} (wf : a.WellFormed)
    {values : List Value} (seeded : a.seed values = (b, .ok ())) :
    ∃ names : List String, values = names.map .str := by
  induction values generalizing a with
  | nil => exact ⟨[], rfl⟩
  | cons v rest ih =>
    unfold seed at seeded
    split at seeded
    · rename_i slot c placed
      obtain ⟨x, rfl, -⟩ := wf.placeValue_eq_ok placed
      obtain ⟨names, rfl⟩ := ih (wf.grows (placeValue_grows placed)) seeded
      exact ⟨x :: names, rfl⟩
    · cases seeded

namespace Listing

theorem texts_map_str (names : List String) : texts (names.map .str) = .ok names := by
  induction names with
  | nil => rfl
  | cons name rest ih => simp only [List.map_cons, texts, ih, Except.map]

theorem exists_localTexts_of_create {suffix locals : Value} {c : Context}
    (created : Context.create suffix locals = .ok c) : ∃ names, localTexts locals = .ok names := by
  obtain ⟨p, values, a, -, members, seeded, -⟩ := Context.create_eq_ok created
  obtain ⟨names, rfl⟩ := (Allocator.WellFormed.empty p.stem).exists_texts_of_seed seeded
  refine ⟨names, ?_⟩
  simp only [localTexts, members, texts_map_str]

theorem printItems_of_checked {label : Value} {items : List Item}
    (checked : Check.items label items = .ok ()) : (printItems items).outcome = .ok () := by
  induction items with
  | nil => rfl
  | cons item rest ih =>
    obtain ⟨_, own, others⟩ := Except.bind_eq_ok.mp checked
    cases item with
    | other v => cases own
    | instruction i => exact ih others

theorem printBlocks_of_checked {seen : List Value.Key} {blocks : List Block}
    (checked : Check.blocks seen blocks = .ok ()) : (printBlocks blocks).outcome = .ok () := by
  induction blocks generalizing seen with
  | nil => rfl
  | cons b rest ih =>
    unfold Check.blocks at checked
    split at checked
    · cases checked
    · split at checked
      · cases checked
      · split at checked
        · cases checked
        · obtain ⟨_, own, others⟩ := Except.bind_eq_ok.mp checked
          simp only [printBlocks, Report.outcome_bind, printItems_of_checked own]
          exact ih others

/-- What passes the checks and has locals that can be bound can be listed. -/
theorem printFunction_of_checked {f : Function} (checked : Check.function f = .ok ())
    {suffix : Value} {c : Context} (created : Context.create suffix f.locals = .ok c) :
    (printFunction f).outcome = .ok () := by
  unfold Check.function at checked
  split at checked
  · cases checked
  · obtain ⟨_, pool, checked⟩ := Except.bind_eq_ok.mp checked
    obtain ⟨_, -, blocks⟩ := Except.bind_eq_ok.mp checked
    obtain ⟨names, named⟩ := exists_localTexts_of_create created
    have sized : ∃ size, poolSize f.consts = .ok size := by
      unfold Check.pool at pool
      split at pool
      · rename_i values consts
        exact ⟨values.length, by rw [consts]; rfl⟩
      · cases pool
    obtain ⟨size, sized⟩ := sized
    simp only [outcome_printFunction, sized, named, printBlocks_of_checked blocks]
    cases f.locals.truthy <;> rfl

end Listing

namespace Pipeline

section Passes

variable (p : Pipeline) (f : Function)

def Accepts (pass : Pass) : Prop := ∃ made, (pass.run f (p.passConfig pass)).outcome = .ok made

def Generates (text : String) : Prop :=
  ∃ m, (Pass.generate.run f (p.passConfig .generate)).outcome = .ok (.assembly text, m)

variable {p f}

theorem Accepts.checked (accepted : p.Accepts f .check) : Check.function f = .ok () := by
  obtain ⟨made, ran⟩ := accepted
  obtain ⟨_, checked, -⟩ := Report.bind_eq_ok.mp ran
  exact checked

/-- A function is generated from options that are an object and locals that can be bound. -/
theorem Accepts.generated (accepted : p.Accepts f .generate) : ∃ text, p.Generates f text ∧
    (∃ options, (p.passConfig .generate).options = .object options) ∧
    ∃ suffix c, Context.create suffix f.locals = .ok c := by
  obtain ⟨made, ran⟩ := accepted
  obtain ⟨options, given, rest⟩ := Report.bind_eq_ok.mp ran
  obtain ⟨c, created, rest⟩ := Report.bind_eq_ok.mp rest
  obtain ⟨_, -, rest⟩ := Report.bind_eq_ok.mp rest
  obtain ⟨text, -, rest⟩ := Report.bind_eq_ok.mp rest
  cases rest
  exact ⟨text, ⟨_, ran⟩, ⟨options, Config.object_of_asObject given⟩, _, c, created⟩

/-- Nothing that is printed after a pass fails, if the function can be listed and the options can be
shown. -/
theorem outcome_runPass_of_ran {pass : Pass} {stage : Stage} {m : Metrics}
    (listed : p.listing f = .ok ()) (shown : p.measuring pass = .ok ())
    (ran : (pass.run f (p.passConfig pass)).outcome = .ok (stage, m)) :
    (p.runPass pass f).2.outcome = .ok stage := by
  have staged : (if p.printStages then (printStage pass stage).outcome else .ok ()) =
      Except.ok () := by
    cases stage with
    | assembly text => rw [outcome_printStage_assembly, ite_self]
    | function g =>
      obtain ⟨-, same⟩ | ⟨-, same⟩ := Pass.run_from ran
      · cases same
        exact listed
      · cases same
        exact listed
  simp only [outcome_runPass_eq, ran, outcome_review, Except.ok_bind, shown, staged]
  rfl

end Passes

end Pipeline

/-- What a pass that is switched on leaves, where both passes accept the function and `text` is its
text. -/
def Stage.next (text : String) : Stage → Pass → Except Failure Stage
  | .function f, .check => .ok (.function f)
  | .function _, .generate => .ok (.assembly text)
  | .assembly _, pass => .error (.passMismatch pass.name functionName assemblyName)

def Stage.Between (f : Function) (text : String) (stage : Stage) : Prop :=
  stage = .function f ∨ stage = .assembly text

theorem Stage.Between.next {f : Function} {text : String} {stage after : Stage} {pass : Pass}
    (between : stage.Between f text) (made : stage.next text pass = .ok after) :
    after.Between f text := by
  obtain rfl | rfl := between
  · cases pass with
    | check =>
      cases made
      exact .inl rfl
    | generate =>
      cases made
      exact .inr rfl
  · cases made

namespace Pipeline

section Runs

variable (p : Pipeline)

def enabledAmong (stations : List Station) : List Pass :=
  (stations.map Station.pass).filter fun pass => (p.passConfig pass).enabled.truthy

/-- The passes of the pipeline that are switched on, in order. -/
def enabledPasses : List Pass := p.enabledAmong p.stations

variable {p} {f : Function} {text : String}

theorem outcome_runStations_next
    (check : (p.runPass .check f).2.outcome = .ok (.function f))
    (generate : (p.runPass .generate f).2.outcome = .ok (.assembly text)) {stage : Stage}
    (between : stage.Between f text) (s : Station) (rest : List Station)
    (enabled : (p.passConfig s.pass).enabled.truthy = true) :
    (p.runStations stage (s :: rest)).2.outcome =
      stage.next text s.pass >>= fun after => (p.runStations after rest).2.outcome := by
  obtain rfl | rfl := between
  · have made : (p.runPass s.pass f).2.outcome = Stage.next text (.function f) s.pass := by
      cases s.pass with
      | check => exact check
      | generate => exact generate
    rw [outcome_runStations f s rest enabled, made]
  · unfold runStations
    simp only [enabled, Bool.not_true, Bool.false_eq_true, if_false]
    rfl

/-- A run is a fold over the passes that are switched on. -/
theorem outcome_runStations_eq_foldlM
    (check : (p.runPass .check f).2.outcome = .ok (.function f))
    (generate : (p.runPass .generate f).2.outcome = .ok (.assembly text)) {stage : Stage}
    (between : stage.Between f text) (stations : List Station) :
    (p.runStations stage stations).2.outcome =
      (p.enabledAmong stations).foldlM (Stage.next text) stage := by
  induction stations generalizing stage with
  | nil =>
    unfold runStations
    rfl
  | cons s rest ih =>
    unfold enabledAmong at ih ⊢
    rw [List.map_cons]
    cases enabled : (p.passConfig s.pass).enabled.truthy with
    | false =>
      rw [outcome_runStations_of_disabled stage s rest enabled,
        List.filter_cons_of_neg (by simpa using enabled)]
      exact ih between
    | true =>
      rw [outcome_runStations_next check generate between s rest enabled,
        List.filter_cons_of_pos (by simpa using enabled), List.foldlM_cons]
      cases made : stage.next text s.pass with
      | error why => rfl
      | ok after => exact ih (between.next made)

end Runs

end Pipeline

namespace Pass

/-- The pass comes after a generating one, and is the first to do so. -/
def FirstAfterGenerate (passes : List Pass) (pass : Pass) : Prop :=
  ∃ before after, passes = before ++ pass :: after ∧ generate ∈ before ∧
    ∀ other, ¬ [generate, other].Sublist before

theorem sublist_of_mem_before {before after : List Pass} {pass : Pass} (some : generate ∈ before) :
    [generate, pass].Sublist (before ++ pass :: after) := by
  have first : [generate].Sublist before := List.singleton_sublist.mpr some
  have second : [pass].Sublist (pass :: after) := List.singleton_sublist.mpr List.mem_cons_self
  exact first.append second

theorem FirstAfterGenerate.sublist {passes : List Pass} {pass : Pass}
    (first : FirstAfterGenerate passes pass) : [generate, pass].Sublist passes := by
  obtain ⟨before, after, rfl, some, -⟩ := first
  exact sublist_of_mem_before some

theorem FirstAfterGenerate.unique {passes : List Pass} {pass other : Pass}
    (one : FirstAfterGenerate passes pass) (another : FirstAfterGenerate passes other) :
    pass = other := by
  obtain ⟨before, after, rfl, some, first⟩ := one
  obtain ⟨before', after', split, some', first'⟩ := another
  obtain ⟨more, rfl, rest⟩ | ⟨more, rfl, rest⟩ := List.append_eq_append_iff.mp split
  · cases more with
    | nil => exact (List.cons.inj rest).1
    | cons next more =>
      obtain ⟨rfl, -⟩ := List.cons.inj rest
      exact absurd (sublist_of_mem_before some) (first' pass)
  · cases more with
    | nil => exact (List.cons.inj rest).1.symm
    | cons next more =>
      obtain ⟨rfl, -⟩ := List.cons.inj rest
      exact absurd (sublist_of_mem_before some') (first other)

/-- A list is all checks, or is cut at its first generating pass. -/
theorem order_cases (passes : List Pass) : ∃ n,
    passes = List.replicate n check ∨ passes = List.replicate n check ++ [generate] ∨
      ∃ pass after, passes = List.replicate n check ++ generate :: pass :: after := by
  induction passes with
  | nil => exact ⟨0, .inl rfl⟩
  | cons first rest ih =>
    cases first with
    | check =>
      obtain ⟨n, rfl | rfl | ⟨pass, after, rfl⟩⟩ := ih
      · exact ⟨n + 1, .inl rfl⟩
      · exact ⟨n + 1, .inr (.inl rfl)⟩
      · exact ⟨n + 1, .inr (.inr ⟨pass, after, rfl⟩)⟩
    | generate =>
      cases rest with
      | nil => exact ⟨0, .inr (.inl rfl)⟩
      | cons pass after => exact ⟨0, .inr (.inr ⟨pass, after, rfl⟩)⟩

theorem generate_notMem_checks (n : Nat) : generate ∉ List.replicate n check := by
  intro listed
  cases List.eq_of_mem_replicate listed

theorem not_sublist_of_last (n : Nat) (pass : Pass) :
    ¬ [generate, pass].Sublist (List.replicate n check ++ [generate]) := by
  induction n with
  | zero =>
    intro within
    have short := within.length_le
    simp at short
  | succ n ih =>
    rw [List.replicate_succ, List.cons_append]
    intro within
    cases within with
    | cons _ later => exact ih later

theorem mem_of_sublist {passes : List Pass} {pass : Pass}
    (later : [generate, pass].Sublist passes) : generate ∈ passes :=
  later.subset List.mem_cons_self

/-- Checks leave the function as it is. -/
theorem foldlM_next_checks (text : String) (f : Function) (n : Nat) (rest : List Pass) :
    (List.replicate n check ++ rest).foldlM (Stage.next text) (.function f) =
      rest.foldlM (Stage.next text) (.function f) := by
  induction n with
  | zero => rfl
  | succ n ih => exact ih

end Pass

namespace Pipeline

variable {p : Pipeline} {f : Function}

theorem runPass_of_accepted (accepted : ∀ pass, p.Accepts f pass)
    (shown : p.printMetrics = true → ∃ options, (p.passConfig .check).options = .object options) :
    p.listing f = .ok () ∧ (p.runPass .check f).2.outcome = .ok (.function f) ∧
      ∃ text, p.Generates f text ∧ (p.runPass .generate f).2.outcome = .ok (.assembly text) := by
  have checked := (accepted .check).checked
  obtain ⟨text, generates, object, suffix, c, created⟩ := (accepted .generate).generated
  have listed : p.listing f = .ok () := by
    unfold listing
    rw [Listing.printFunction_of_checked checked created, ite_self]
  refine ⟨listed, ?_, text, generates, ?_⟩
  · apply outcome_runPass_of_ran listed (measuring_of_object shown)
    simp only [Pass.run, Pass.runCheck, Report.outcome_bind, Report.ofExcept, checked]
    rfl
  · obtain ⟨m, ran⟩ := generates
    exact outcome_runPass_of_ran listed (measuring_of_object fun _ => object) ran

/-- On a function that both passes accept, a run ends as the order of its passes says. -/
theorem run_cases (accepted : ∀ pass, p.Accepts f pass)
    (shown : p.printMetrics = true → ∃ options, (p.passConfig .check).options = .object options) :
    ∃ n, (p.enabledPasses = List.replicate n Pass.check ∧
        (p.run f).2.outcome = .error (.unfinished Stage.functionName)) ∨
      (p.enabledPasses = List.replicate n Pass.check ++ [Pass.generate] ∧
        ∃ text, (p.run f).2.outcome = .ok text ∧ p.Generates f text) ∨
      ∃ pass after, p.enabledPasses = List.replicate n Pass.check ++ Pass.generate :: pass :: after ∧
        (p.run f).2.outcome =
          .error (.passMismatch pass.name Stage.functionName Stage.assemblyName) := by
  obtain ⟨listed, check, text, generates, generate⟩ := runPass_of_accepted accepted shown
  have ran : (p.run f).2.outcome = p.enabledPasses.foldlM (Stage.next text) (.function f) >>=
      fun stage => (p.conclude stage).outcome := by
    rw [outcome_run, outcome_announce, listed, Except.ok_bind,
      outcome_runStations_eq_foldlM check generate (.inl rfl), enabledPasses]
  obtain ⟨n, order | order | ⟨pass, after, order⟩⟩ := Pass.order_cases p.enabledPasses
  · refine ⟨n, .inl ⟨order, ?_⟩⟩
    rw [ran, order, ← List.append_nil (List.replicate n _), Pass.foldlM_next_checks]
    exact p.outcome_conclude_function f
  · refine ⟨n, .inr (.inl ⟨order, text, ?_, generates⟩)⟩
    rw [ran, order, Pass.foldlM_next_checks]
    exact p.outcome_conclude_assembly text
  · refine ⟨n, .inr (.inr ⟨pass, after, order, ?_⟩)⟩
    rw [ran, order, Pass.foldlM_next_checks]
    rfl

/-- On a function that both passes accept, a run gives a text exactly if the passes that are switched on
are any number of checks and then one generating pass, and it is the text of that function. A pass finds
the wrong kind of program exactly if one that is switched on comes after a generating one that is, and
the failure names the first that does. The run is left unfinished exactly if no generating pass is
switched on. Options are declared as objects; those of the checks are read where metrics are printed. -/
theorem run_decided_by_order (accepted : ∀ pass, p.Accepts f pass)
    (shown : p.printMetrics = true → ∃ options, (p.passConfig .check).options = .object options) :
    ((∃ text, (p.run f).2.outcome = .ok text) ↔
        ∃ n, p.enabledPasses = List.replicate n Pass.check ++ [Pass.generate]) ∧
      (∀ text, (p.run f).2.outcome = .ok text → p.Generates f text) ∧
      ((∃ failure, (p.run f).2.outcome = .error failure ∧ failure.kind = .fault .wrongType) ↔
        ∃ pass, [Pass.generate, pass].Sublist p.enabledPasses) ∧
      (∀ failure, (p.run f).2.outcome = .error failure → failure.kind = .fault .wrongType →
        ∃ pass, Pass.FirstAfterGenerate p.enabledPasses pass ∧
          failure = .passMismatch pass.name Stage.functionName Stage.assemblyName) ∧
      ((∃ failure, (p.run f).2.outcome = .error failure ∧ failure.kind = .unfinished) ↔
        Pass.generate ∉ p.enabledPasses) := by
  obtain ⟨n, ⟨order, ended⟩ | ⟨order, text, ended, generates⟩ | ⟨pass, after, order, ended⟩⟩ :=
    run_cases accepted shown
  · have none : Pass.generate ∉ p.enabledPasses := order ▸ Pass.generate_notMem_checks n
    have unmade : ¬ ∃ m, p.enabledPasses = List.replicate m Pass.check ++ [Pass.generate] := by
      rintro ⟨m, made⟩
      exact none (made ▸ by simp)
    have unfollowed : ¬ ∃ pass, [Pass.generate, pass].Sublist p.enabledPasses := by
      rintro ⟨pass, later⟩
      exact none (Pass.mem_of_sublist later)
    simp [ended, none, unmade, unfollowed, Failure.kind]
  · have some : Pass.generate ∈ p.enabledPasses := by simp [order]
    have unfollowed : ∀ pass, ¬ [Pass.generate, pass].Sublist p.enabledPasses := by
      rw [order]
      exact Pass.not_sublist_of_last n
    have made : ∃ m, p.enabledPasses = List.replicate m Pass.check ++ [Pass.generate] := ⟨n, order⟩
    simp [ended, some, unfollowed, made, generates]
  · have first : Pass.FirstAfterGenerate p.enabledPasses pass := by
      refine ⟨List.replicate n Pass.check ++ [Pass.generate], after, by simp [order], by simp, ?_⟩
      exact Pass.not_sublist_of_last n
    have later := first.sublist
    have unmade : ¬ ∃ m, p.enabledPasses = List.replicate m Pass.check ++ [Pass.generate] := by
      rintro ⟨m, made⟩
      exact Pass.not_sublist_of_last m pass (made ▸ later)
    have some := Pass.mem_of_sublist later
    have followed : ∃ pass, [Pass.generate, pass].Sublist p.enabledPasses := ⟨pass, later⟩
    refine ⟨?_, ?_, ?_, ?_, ?_⟩
    · simp [ended, unmade]
    · simp [ended]
    · simp [ended, followed, Failure.kind]
    · intro failure failed _
      rw [ended] at failed
      cases failed
      exact ⟨pass, first, rfl⟩
    · simp [ended, some, Failure.kind]

theorem accepts_doubled {p : Pipeline} (plain : (p.passConfig .generate).options = .object [])
    (pass : Pass) : p.Accepts doubled pass := by
  cases pass with
  | check => exact ⟨_, rfl⟩
  | generate =>
    have created : Context.create (.str defaultSuffix) doubled.locals = .ok Context.fresh :=
      Context.create_default
    have made := Pass.outcome_runGenerate doubled plain
    simp only [Table.get?, Option.getD_none, created, Except.ok_bind] at made
    unfold Accepts
    simp only [Pass.run]
    cases ran : (Pass.runGenerate doubled (p.passConfig .generate)).outcome with
    | ok made => exact ⟨made, rfl⟩
    | error why =>
      rw [ran] at made
      cases made

/-- A pipeline of some passes in which one is switched off and everything is printed. -/
def trial (passes : List Pass) (off : Option Pass) : Pipeline :=
  { stations := passes.map fun pass => { pass := pass }
    config := off.toList.map fun pass => (pass.name, { enabled := .bool false })
    printStages := true
    printMetrics := true }

/-- A check after the generating pass does no harm if it is switched off. -/
theorem run_decided_by_order_of_trials :
    (∃ text, ((trial [.generate, .check] (some .check)).run doubled).2.outcome = .ok text ∧
        (trial [.generate, .check] (some .check)).Generates doubled text) ∧
      ((trial [.check, .generate, .check, .generate] none).run doubled).2.outcome =
        .error (.passMismatch "lir-verify" "lir" "lbasm") ∧
      ∃ failure, ((trial [.check, .generate] (some .generate)).run doubled).2.outcome =
        .error failure ∧ failure.kind = .unfinished := by
  refine ⟨?_, ?_, ?_⟩
  · obtain ⟨made, own, -⟩ := run_decided_by_order (accepts_doubled
      (p := trial [.generate, .check] (some .check)) rfl) fun _ => ⟨[], rfl⟩
    obtain ⟨text, ran⟩ := made.mpr ⟨0, rfl⟩
    exact ⟨text, ran, own text ran⟩
  · obtain ⟨-, -, wrong, named, -⟩ := run_decided_by_order (accepts_doubled
      (p := trial [.check, .generate, .check, .generate] none) rfl) fun _ => ⟨[], rfl⟩
    have order : (trial [.check, .generate, .check, .generate] none).enabledPasses =
      [.check, .generate, .check, .generate] := rfl
    obtain ⟨failure, failed, kind⟩ := wrong.mpr ⟨.check, by rw [order]; decide⟩
    obtain ⟨pass, first, rfl⟩ := named failure failed kind
    have check : Pass.FirstAfterGenerate [.check, .generate, .check, .generate] .check :=
      ⟨[.check, .generate], [.generate], rfl, by decide, Pass.not_sublist_of_last 1⟩
    rw [order] at first
    rw [failed, first.unique check]
    rfl
  · obtain ⟨-, -, -, -, unfinished⟩ := run_decided_by_order (accepts_doubled
      (p := trial [.check, .generate] (some .generate)) rfl) fun _ => ⟨[], rfl⟩
    exact unfinished.mpr (by decide)

end Pipeline

end BlockAsm
