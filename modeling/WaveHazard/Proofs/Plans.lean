import WaveHazard.Pass.Registry
import WaveHazard.Proofs.Outcome

/-! # Plans

A registry is put together by calls, some of which may be refused. A call that is refused leaves it
as it was, so what holds of the empty registry and is kept by the calls that succeed holds however
the registry was put together. An alias is expanded when it is added, against what the names it is
made of stand for by then; it never stands for anything but passes that are there. Hence there is a
plan of all names that are known, and running it runs its passes but those that are left out, up to
the first one that fails.
-/

namespace WaveHazard

open Machine Outcome

/-- The journal is an earlier one with perhaps more records. -/
structure Journal.Continues (journal earlier : Journal) : Prop where
  verbosity : journal.verbosity = earlier.verbosity
  records : earlier.records.toList <+: journal.records.toList

namespace Journal

/-- What is logged comes behind all that there is. -/
theorem continues_log (journal : Journal) (level : Level) (text : Unit → String) :
    (journal.log level text).Continues journal := by
  unfold log
  split
  · exact ⟨rfl, by simp⟩
  · exact ⟨rfl, List.prefix_refl _⟩

theorem Continues.trans {first second third : Journal} (later : third.Continues second)
    (earlier : second.Continues first) : third.Continues first :=
  ⟨later.verbosity.trans earlier.verbosity, earlier.records.trans later.records⟩

end Journal

namespace Registry

variable {registry : Registry} {draft later : Draft} {name : String} {members : List String}

/-- The name is that of an alias or of a pass. -/
def Knows (registry : Registry) (name : String) : Prop :=
  (registry.alias? name).isSome ∨ registry.hasPass name

/-- Aliases stand for registered passes only. -/
def Flat (registry : Registry) : Prop :=
  ∀ stored ∈ registry.aliases, ∀ name ∈ stored.2, registry.hasPass name

section Lookup

/-- A new pass is found behind all the others. -/
theorem pass?_push (registry : Registry) (pass : Pass Unit) (name : String) :
    pass? { registry with passes := registry.passes ++ [pass] } name =
      (registry.pass? name).or (if name = pass.name then some pass else none) := by
  unfold pass?
  rw [List.find?_append, List.find?_singleton]
  simp only [beq_iff_eq, @eq_comm String name]

/-- A new pass is known besides all the others. -/
theorem hasPass_push (registry : Registry) (pass : Pass Unit) (name : String) :
    hasPass { registry with passes := registry.passes ++ [pass] } name =
      (registry.hasPass name || pass.name == name) := by
  unfold hasPass
  rw [pass?_push, Option.isSome_or, apply_ite Option.isSome]
  simp [eq_comm, Bool.beq_eq_decide_eq]

/-- A new alias is found behind all the others. -/
theorem alias?_push (registry : Registry) (added name : String) (passes : List String) :
    alias? { registry with aliases := registry.aliases ++ [(added, passes)] } name =
      (registry.alias? name).or (if name = added then some passes else none) := by
  unfold alias?
  rw [List.lookup_append, List.lookup_cons, List.lookup_nil]
  by_cases same : name = added
  · simp [same]
  · rw [beq_false_of_ne same, if_neg same]

/-- An alias that is found is one that was added. -/
theorem mem_aliases_of_alias? {passes : List String} (found : registry.alias? name = some passes) :
    (name, passes) ∈ registry.aliases := by
  obtain ⟨before, after, split, _⟩ := List.lookup_eq_some_iff.mp found
  rw [split]
  exact List.mem_append_right _ List.mem_cons_self

/-- What a name stands for are registered passes exactly if the name is known. -/
theorem Flat.forall_mem_resolve (flat : registry.Flat) :
    (∀ pass ∈ registry.resolve name, registry.hasPass pass) ↔ registry.Knows name := by
  unfold resolve Knows
  cases found : registry.alias? name with
  | none => simp
  | some passes => simpa using flat _ (mem_aliases_of_alias? found)

end Lookup

section Expanding

/-- A name that is known is expanded to what it stands for, and no other one is. -/
theorem expand_eq_ok {passes : List String} :
    registry.expand name = .ok passes ↔ registry.Knows name ∧ registry.resolve name = passes := by
  unfold expand Knows resolve
  cases registry.alias? name with
  | none => cases registry.hasPass name <;> simp
  | some found => simp

/-- The members of an alias are expanded to what they stand for, if they are all known. -/
theorem mapM_expand_eq_ok {passes : List (List String)} :
    members.mapM registry.expand = .ok passes ↔
      (∀ member ∈ members, registry.Knows member) ∧ members.map registry.resolve = passes := by
  simp only [mapM_eq_ok, expand_eq_ok, List.forall₂_and_left, ← List.forall₂_map_left_iff,
    List.forall₂_eq_eq_eq]

end Expanding

section Calls

/-- A pass is registered, unless there is one of its name. -/
theorem run_register (pass : Pass Unit) (draft : Draft) :
    (draft.registry.hasPass pass.name ∧
      ∃ diagnostic, (register pass).run draft = (.error diagnostic, draft)) ∨
    (draft.registry.hasPass pass.name = false ∧
      ∃ journal, (register pass).run draft = (.ok (),
        { registry := { draft.registry with passes := draft.registry.passes ++ [pass] },
          journal })) := by
  have tests : (register pass).run draft =
      (if draft.registry.hasPass pass.name then _ else _ : Call Unit).run draft := rfl
  rw [tests]
  cases draft.registry.hasPass pass.name with
  | true => exact .inl ⟨rfl, _, rfl⟩
  | false => exact .inr ⟨rfl, _, rfl⟩

/-- The outcome of a check decides whether a call goes on. -/
theorem run_ofExcept_bind {α : Type} (result : Except Diagnostic α) (next : α → Call Unit)
    (draft : Draft) :
    (MonadExcept.ofExcept result >>= next).run draft =
      match result with
      | .ok value => (next value).run draft
      | .error diagnostic => (.error diagnostic, draft) := by
  rw [ExceptT.run_bind]
  cases result <;> rfl

/-- An alias is added, unless there is one of its name or a member is not known. It stands for what
its members stand for, one after the other. -/
theorem run_addAlias (name : String) (members : List String) (draft : Draft) :
    (¬(draft.registry.alias? name = none ∧ ∀ member ∈ members, draft.registry.Knows member) ∧
      ∃ diagnostic, (addAlias name members).run draft = (.error diagnostic, draft)) ∨
    ((draft.registry.alias? name = none ∧ ∀ member ∈ members, draft.registry.Knows member) ∧
      (addAlias name members).run draft = (.ok (), { draft with
        registry := { draft.registry with aliases := draft.registry.aliases ++
          [(name, members.flatMap draft.registry.resolve)] } })) := by
  have tests : (addAlias name members).run draft =
      (if (draft.registry.alias? name).isSome then _ else _ : Call Unit).run draft := rfl
  rw [tests]
  cases draft.registry.alias? name with
  | some passes => exact .inl ⟨fun free => (nomatch free.1), _, rfl⟩
  | none =>
      rw [Option.isSome_none, if_neg Bool.false_ne_true, run_ofExcept_bind]
      cases expanded : members.mapM draft.registry.expand with
      | error diagnostic =>
          refine .inl ⟨fun free => ?_, _, rfl⟩
          cases expanded.symm.trans (mapM_expand_eq_ok.mpr ⟨free.2, rfl⟩)
      | ok passes =>
          obtain ⟨known, rfl⟩ := mapM_expand_eq_ok.mp expanded
          exact .inr ⟨⟨rfl, known⟩, rfl⟩

/-- A pass that is registered is found under its name, which was free, and all names stand for what
they have. -/
theorem pass?_of_register {pass : Pass Unit}
    (registered : (register pass).run draft = (.ok (), later)) (name : String) :
    (later.registry.pass? name =
      if name = pass.name then some pass else draft.registry.pass? name) ∧
    later.registry.resolve name = draft.registry.resolve name := by
  rcases run_register pass draft with ⟨_, _, ran⟩ | ⟨free, _, ran⟩ <;>
    cases ran.symm.trans registered
  refine ⟨(pass?_push ..).trans ?_, rfl⟩
  split
  · subst name
    rw [Option.not_isSome_iff_eq_none.mp (ne_true_of_eq_false free), Option.none_or]
  · rw [Option.or_none]

/-- An alias that is added stands for what its members have stood for, and all the other names for
what they have. The passes stay the same. -/
theorem resolve_of_addAlias (added : (addAlias name members).run draft = (.ok (), later))
    (other : String) :
    (later.registry.resolve other =
      if other = name then members.flatMap draft.registry.resolve
      else draft.registry.resolve other) ∧
    later.registry.pass? other = draft.registry.pass? other := by
  rcases run_addAlias name members draft with ⟨_, _, ran⟩ | ⟨⟨fresh, _⟩, ran⟩ <;>
    cases ran.symm.trans added
  refine ⟨?_, rfl⟩
  unfold resolve
  rw [alias?_push]
  split
  · subst other
    rw [fresh]
    rfl
  · rw [Option.or_none]

/-- A call that changes a registry. -/
inductive Request where
  | register (pass : Pass Unit)
  | addAlias (name : String) (members : List String)

namespace Request

/-- Make the call. -/
def call : Request → Call Unit
  | register pass => Registry.register pass
  | addAlias name members => Registry.addAlias name members

variable {request : Request}

/-- A call that is refused changes nothing. -/
theorem eq_of_refused {diagnostic : Diagnostic}
    (refused : request.call.run draft = (.error diagnostic, later)) : later = draft := by
  cases request with
  | register pass =>
      rcases run_register pass draft with ⟨_, _, ran⟩ | ⟨_, _, ran⟩ <;> cases ran.symm.trans refused
      rfl
  | addAlias name members =>
      rcases run_addAlias name members draft with ⟨_, _, ran⟩ | ⟨_, ran⟩ <;>
        cases ran.symm.trans refused
      rfl

/-- Aliases stand for registered passes after a call as they did before. -/
theorem flat (flat : draft.registry.Flat) (request : Request) :
    (request.call.run draft).2.registry.Flat := by
  cases request with
  | register pass =>
      rcases run_register pass draft with ⟨_, _, ran⟩ | ⟨_, _, ran⟩ <;> rw [call, ran]
      · exact flat
      · intro stored listed name member
        rw [hasPass_push, flat stored listed name member]
        rfl
  | addAlias name members =>
      rcases run_addAlias name members draft with ⟨_, _, ran⟩ | ⟨⟨_, known⟩, ran⟩ <;> rw [call, ran]
      · exact flat
      · intro stored listed pass member
        rcases List.mem_append.mp listed with old | new
        · exact flat stored old pass member
        · cases List.mem_singleton.mp new
          obtain ⟨other, inside, there⟩ := List.mem_flatMap.mp member
          exact flat.forall_mem_resolve.mpr (known other inside) pass there

end Request

/-- What a series of calls makes of a draft, whether or not they are refused. -/
def Draft.after (draft : Draft) (requests : List Request) : Draft :=
  requests.foldl (fun draft request => (request.call.run draft).2) draft

/-- However a registry was put together, its aliases stand for registered passes. -/
theorem flat_after (requests : List Request) (flat : draft.registry.Flat) :
    (draft.after requests).registry.Flat := by
  induction requests generalizing draft with
  | nil => exact flat
  | cons request rest ih =>
      exact ih (Request.flat flat request)

end Calls

section Planning

variable {included excluded : List String} {plan : Plan}

/-- There is one plan at most: what the names stand for, if all of that is registered. -/
theorem plan_eq_ok :
    registry.plan included excluded = .ok plan ↔
      (∀ name ∈ plan.included ++ plan.excluded, registry.hasPass name) ∧
        { included := included.flatMap registry.resolve,
          excluded := excluded.flatMap registry.resolve } = plan := by
  unfold Registry.plan
  simp only [bind_eq_ok]
  constructor
  · rintro ⟨_, checked, done⟩
    cases done
    refine ⟨fun name member => ?_, rfl⟩
    have passed := forM_eq_ok.mp checked name member
    split at passed
    · assumption
    · cases passed
  · rintro ⟨passes, rfl⟩
    exact ⟨(), forM_eq_ok.mpr fun name member => if_pos (passes name member), rfl⟩

/-- There is a plan of names that are all known, and of no others. -/
theorem Flat.exists_plan_iff (flat : registry.Flat) :
    (∃ plan, registry.plan included excluded = .ok plan) ↔
      ∀ name ∈ included ++ excluded, registry.Knows name := by
  have passes : (∃ plan, registry.plan included excluded = .ok plan) ↔
      ∀ pass ∈ (included ++ excluded).flatMap registry.resolve, registry.hasPass pass := by
    rw [List.flatMap_append]
    constructor
    · rintro ⟨plan, made⟩
      obtain ⟨known, rfl⟩ := plan_eq_ok.mp made
      exact known
    · intro known
      exact ⟨_, plan_eq_ok.mpr ⟨known, rfl⟩⟩
  simp only [passes, List.forall_mem_flatMap, flat.forall_mem_resolve]

end Planning

section Running

variable {target : Target} {options names excluded : List String} {before after : Session Unit}
  {result : Except Stop Unit} {passes : List (Pass Unit)}

/-- The passes run one after the other, and all of them succeed but perhaps the last one, which ends
the run. Between two of them the journal is continued, and nothing else changes. -/
inductive Runs (target : Target) (options : List String) :
    List (Pass Unit) → Session Unit → Except Stop Unit → Session Unit → Prop where
  | done (session : Session Unit) : Runs target options [] session (.ok ()) session
  | report {passes : List (Pass Unit)} {before after : Session Unit} {result : Except Stop Unit}
      {journal : Journal} : journal.Continues before.journal →
        Runs target options passes { before with journal } result after →
          Runs target options passes before result after
  | succeed {pass : Pass Unit} {passes : List (Pass Unit)} {before between after : Session Unit}
      {result : Except Stop Unit} :
      (pass.run target options).run before = (.ok (), between) →
        Runs target options passes between result after →
          Runs target options (pass :: passes) before result after
  | fail {pass : Pass Unit} {before after : Session Unit} {reason : Stop} :
      (pass.run target options).run before = (.error reason, after) →
        Runs target options [pass] before (.error reason) after

/-- The passes of the names that are not excluded, in their order. -/
def Chooses (registry : Registry) (names excluded : List String) (passes : List (Pass Unit)) :
    Prop :=
  List.Forall₂ (fun name pass => registry.pass? name = some pass)
    (names.filter fun name => name ∉ excluded) passes

/-- Names of registered passes choose these passes. -/
theorem exists_chooses (excluded : List String) (known : ∀ name ∈ names, registry.hasPass name) :
    ∃ passes, registry.Chooses names excluded passes := by
  unfold Chooses
  induction names with
  | nil => exact ⟨[], .nil⟩
  | cons name rest ih =>
      obtain ⟨here, others⟩ := List.forall_mem_cons.mp known
      obtain ⟨passes, chosen⟩ := ih others
      obtain ⟨pass, named⟩ := Option.isSome_iff_exists.mp here
      rw [List.filter_cons]
      split
      · exact ⟨pass :: passes, .cons named chosen⟩
      · exact ⟨passes, chosen⟩

/-- Once a pass has succeeded, what it has left and its end are reported. -/
theorem run_runPass (target : Target) (options : List String) (pass : Pass Unit)
    (before : Session Unit) :
    (runPass target options pass).run before =
      match (pass.run target options).run before with
      | (.error reason, after) => (.error reason, after)
      | (.ok (), after) =>
          let told := after.journal.log .trace fun _ =>
            s!"after {pass.name}:\n{after.program.text}"
          (.ok (), { after with journal := told.log .info fun _ => s!"{pass.name}: done" }) := by
  unfold runPass
  rw [Walk.run_bind]
  rcases (pass.run target options).run before with ⟨_ | _, after⟩ <;> rfl

/-- The passes chosen by a list of names run in their order, up to the first one that fails. -/
theorem runs_of_runNames (chosen : registry.Chooses names excluded passes)
    (ran : (registry.runNames target options excluded names).run before = (result, after)) :
    ∃ begun, begun <+: passes ∧ Runs target options begun before result after ∧
      (result = .ok () → begun = passes) := by
  unfold Chooses at chosen
  induction names generalizing before passes with
  | nil =>
      cases chosen
      cases ran
      exact ⟨[], List.prefix_refl _, .done _, fun _ => rfl⟩
  | cons name rest ih =>
      rw [List.filter_cons] at chosen
      unfold runNames at ran
      by_cases left : name ∈ excluded
      · rw [if_neg (by simpa using left)] at chosen
        rw [if_pos left] at ran
        obtain ⟨begun, front, runs, all⟩ := ih chosen ran
        exact ⟨begun, front, .report (Journal.continues_log _ _ _) runs, all⟩
      · rw [if_pos (by simpa using left)] at chosen
        rw [if_neg left] at ran
        cases chosen with
        | @cons _ pass _ passes named others =>
            rw [named, Walk.run_bind, run_runPass] at ran
            rcases first : (pass.run target options).run before with ⟨_ | _, between⟩
            · rw [first] at ran
              cases ran
              exact ⟨[pass], ⟨passes, rfl⟩, .fail first, fun failed => nomatch failed⟩
            · rw [first] at ran
              obtain ⟨begun, front, runs, all⟩ := ih others ran
              have reported : Runs target options begun between result after :=
                .report ((Journal.continues_log _ _ _).trans (Journal.continues_log _ _ _)) runs
              exact ⟨pass :: begun, List.cons_prefix_cons.mpr ⟨rfl, front⟩,
                .succeed first reported, fun done => congrArg (pass :: ·) (all done)⟩

/-- Where no plan can be made, nothing is run. Otherwise the passes that are included and not
excluded are run in their order, up to the first one that fails. -/
theorem run_execute {included : List String}
    (ran : (registry.execute target options included excluded).run before = (result, after)) :
    (∃ diagnostic, registry.plan included excluded = .error diagnostic ∧
      result = .error (.refused diagnostic) ∧ after = before) ∨
    ∃ plan passes begun, registry.plan included excluded = .ok plan ∧
      registry.Chooses plan.included plan.excluded passes ∧ begun <+: passes ∧
      Runs target options begun before result after ∧ (result = .ok () → begun = passes) := by
  unfold execute at ran
  cases made : registry.plan included excluded with
  | error diagnostic =>
      rw [made] at ran
      cases ran
      exact .inl ⟨diagnostic, rfl, rfl, rfl⟩
  | ok plan =>
      rw [made] at ran
      have known := (plan_eq_ok.mp made).1
      obtain ⟨passes, chosen⟩ := exists_chooses plan.excluded
        fun name listed => known name (List.mem_append_left plan.excluded listed)
      obtain ⟨begun, front, runs, all⟩ := runs_of_runNames chosen ran
      exact .inr ⟨plan, passes, begun, rfl, chosen, front, runs, all⟩

end Running

/-- However a registry was put together, by calls that succeeded and calls that were refused: a call
that is refused leaves it as it is, its aliases stand for registered passes only, a pass that is
registered is found from then on under its name and nothing else changes, and an alias that is added
stands for what its members stand for by then. There is a plan exactly of names that are known. It
consists of what they stand for, in order and with repetitions, and what is run are the passes in it
that no excluded name stands for, in order, up to the first one that fails. Nothing is run when
there is no plan. -/
theorem plans_of_any_registry (requests : List Request) (journal : Journal) :
    let draft := Draft.after { journal } requests
    let registry := draft.registry
    (∀ (request : Request) diagnostic later,
      request.call.run draft = (.error diagnostic, later) → later = draft) ∧
    (∀ stored ∈ registry.aliases, ∀ name ∈ stored.2, registry.hasPass name) ∧
    (∀ pass later, (register pass).run draft = (.ok (), later) → ∀ name,
      (later.registry.pass? name =
        if name = pass.name then some pass else registry.pass? name) ∧
      later.registry.resolve name = registry.resolve name) ∧
    (∀ name members later, (addAlias name members).run draft = (.ok (), later) → ∀ other,
      (later.registry.resolve other =
        if other = name then members.flatMap registry.resolve else registry.resolve other) ∧
      later.registry.pass? other = registry.pass? other) ∧
    ∀ included excluded : List String,
      ((∃ plan, registry.plan included excluded = .ok plan) ↔
        ∀ name ∈ included ++ excluded, (registry.alias? name).isSome ∨ registry.hasPass name) ∧
      (∀ plan, registry.plan included excluded = .ok plan →
        plan.included = included.flatMap registry.resolve ∧
        plan.excluded = excluded.flatMap registry.resolve) ∧
      ∀ target options before result after,
        (registry.execute target options included excluded).run before = (result, after) →
          (∃ diagnostic, registry.plan included excluded = .error diagnostic ∧
            result = .error (.refused diagnostic) ∧ after = before) ∨
          ∃ plan passes begun, registry.plan included excluded = .ok plan ∧
            registry.Chooses plan.included plan.excluded passes ∧ begun <+: passes ∧
            Runs target options begun before result after ∧ (result = .ok () → begun = passes) := by
  intro draft registry
  have flat : registry.Flat := flat_after requests fun _ listed => absurd listed List.not_mem_nil
  refine ⟨fun _ _ _ refused => Request.eq_of_refused refused, flat,
    fun _ _ registered => pass?_of_register registered, ?_, ?_⟩
  · intro name members later added other
    exact resolve_of_addAlias added other
  · intro included excluded
    refine ⟨flat.exists_plan_iff, fun plan made => ?_, fun _ _ _ _ _ ran => run_execute ran⟩
    obtain ⟨_, rfl⟩ := plan_eq_ok.mp made
    exact ⟨rfl, rfl⟩

/-- An alias for nothing takes the place of a pass of its name, but not where an alias has been
expanded before. -/
example : ((Draft.after {} [.register { name := "check", description := "" },
    .addAlias "checks" ["check", "check"], .addAlias "check" [], .addAlias "checks" [],
    .addAlias "all" ["checks", "check"]]).registry.plan ["all", "check"] ["check"]) =
      .ok { included := ["check", "check"], excluded := [] } := by
  rfl

end Registry

end WaveHazard
