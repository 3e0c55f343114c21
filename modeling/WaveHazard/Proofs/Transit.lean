import WaveHazard.Proofs.Invariants
import WaveHazard.Proofs.WaitCode

/-! # Running a block and its schedule side by side

The transfer function walks over the instructions of a block; the machine runs the code of the
schedule it yields. A relation between what the code has issued, the state of the analysis and the
flight is kept along the way when the analysis simulates the machine; an invariant that the analysis
upholds is such a relation.

Between two instructions the state of the analysis may be ahead of the machine, because it is moved
past waits that are still queued. So what is known there is conditional: the relation holds of every
flight that can follow and has met the queue. `Crosses` says what the transfer function does with
one instruction, and `Simulates.arrives` follows a whole run to any point of the block.
-/

namespace WaveHazard.Hazard

open Machine Wait

/-- Waits are required one after the other, each on top of the queue so far. -/
inductive Requires (setting : Setting) : State → Queue → State → Queue → Prop where
  | done (state : State) (queue : Queue) : Requires setting state queue state queue
  | step {state middle final : State} {queue passed last : Queue} {instr : Instr}
      {footprint : Footprint} {sync : Sync} : instr.footprint = .ok footprint →
      state.require setting queue instr footprint sync = (middle, passed) →
        Requires setting middle passed final last → Requires setting state queue final last

/-- What the transfer function does with an instruction: it requires the waits of the instruction
and of those that form a clause with it, and issues the instruction. -/
inductive Crosses (setting : Setting) (state : State) (queue : Queue) (instr : Instr) :
    State → Queue → Prop where
  | intro {passed ready issued : State} {asked queued : Queue} (footprint : Footprint)
      (touches : instr.footprint = .ok footprint)
      (required : state.require setting (absorb setting state queue instr) instr footprint
        instr.sync = (passed, asked))
      (clause : Requires setting passed asked ready queued)
      (issue : issueAll setting ready instr = .ok issued) :
      Crosses setting state queue instr issued queued

/-- How the transfer function goes on behind an instruction. One that is absorbed leaves its queue
to the next instruction; any other is placed behind its queue. -/
inductive Proceeds (setting : Setting) (instr : Instr) (issued : State) (queued : Queue)
    (rest : List Instr) (final : State) (trailing : Queue) : List Placement → Prop where
  | absorb {covered : Nat} {placed : List Placement} :
      isAbsorbed setting.generation instr = true →
        transferFrom setting covered issued queued rest = .ok (final, trailing, placed) →
          Proceeds setting instr issued queued rest final trailing placed
  | place {covered : Nat} {placed : List Placement} :
      isAbsorbed setting.generation instr = false →
        transferFrom setting covered issued { wait := issued.afterIssue setting instr } rest =
          .ok (final, trailing, placed) →
          Proceeds setting instr issued queued rest final trailing
            (absorbExports queued instr :: placed)

variable {setting : Setting}

/-- The waits of the input join the queue. -/
theorem entails_absorb (state : State) (queue : Queue) (instr : Instr) :
    Entails (absorb setting state queue instr).wait queue.wait := by
  unfold absorb
  dsimp only
  split
  · exact entails_combine_left _ _
  · exact Entails.refl _

/-- The queue only grows stricter. -/
theorem Requires.entails {state final : State} {queue last : Queue}
    (requires : Requires setting state queue final last) : Entails last.wait queue.wait := by
  induction requires with
  | done state queue => exact Entails.refl _
  | step _ required _ ih =>
      exact ih.trans ((of_require required).1.trans (entails_combine_left _ _))

/-- The analysis simulates the machine along a relation between what has been issued, the state and
the flight: the relation is kept when operations leave, when the state is moved past a queue that is
met, and when both sides issue an instruction. Of asynchronous instructions only those are issued
that are allowed. -/
structure Simulates (setting : Setting) (allowed : Instr → Prop)
    (fits : Flight → State → Flight → Prop) : Prop where
  counted : ∀ {issued state flight}, fits issued state flight → Counted setting.generation flight
  drains : ∀ {issued state flight next}, fits issued state flight →
    Drains setting.generation flight next → fits issued state next
  require : ∀ {issued flight : Flight} {state after : State} {queue passed : Queue} {instr : Instr}
    {footprint : Footprint} {sync : Sync}, fits issued state flight →
      state.require setting queue instr footprint sync = (after, passed) →
        Met passed.wait flight → fits issued after flight
  issueAll : ∀ {issued flight : Flight} {state after : State} {instr : Instr},
    fits issued state flight → issueAll setting state instr = .ok after →
      (isAsynchronous setting.generation instr = true → allowed instr) →
        fits (issued ++ launch setting.generation instr) after
          (flight ++ launch setting.generation instr)

/-- Operations that are issued are counted. -/
theorem Counted.issue {generation : Generation} {flight : Flight}
    (counted : Counted generation flight) (instr : Instr) :
    Counted generation (flight ++ launch generation instr) := by
  intro token member
  rcases List.mem_append.mp member with older | newer
  · exact counted token older
  · obtain ⟨operation, _, launched⟩ := List.mem_flatMap.mp newer
    obtain ⟨rfl, counts⟩ := mem_tokens.mp launched
    exact counts

/-- An invariant that is upheld only speaks of operations that are counted. -/
theorem Upheld.counted_of_tallied {strict : Prop} {invariant : State → Token → Nat → Prop}
    (upheld : Upheld setting strict invariant) {state : State} {flight : Flight}
    (tallied : Tallied setting.generation (invariant state) flight) :
    Counted setting.generation flight := by
  intro token member
  obtain ⟨count, holds⟩ := tallied.of_mem member
  exact upheld.counted holds

/-- An invariant that is upheld is kept by flights as a whole, whatever has been issued. -/
theorem Upheld.simulates {strict : Prop} {invariant : State → Token → Nat → Prop}
    (upheld : Upheld setting strict invariant) :
    Simulates setting (fun instr => strict → HasSingleResult setting.generation instr)
      fun _ state => Tallied setting.generation (invariant state) where
  counted tallied := upheld.counted_of_tallied tallied
  drains tallied drains := tallied.drains drains
  require tallied required met := upheld.require tallied required met
  issueAll tallied issued permitted := upheld.issueAll tallied issued
    fun wanted asynchronous => permitted asynchronous wanted asynchronous

/-- A flight that meets the last queue of a chain of demands fits the state behind it. -/
theorem Requires.fits {allowed : Instr → Prop} {fits : Flight → State → Flight → Prop}
    (simulates : Simulates setting allowed fits) {state final : State} {queue last : Queue}
    (requires : Requires setting state queue final last) {issued flight : Flight}
    (before : fits issued state flight) (met : Met last.wait flight) :
    fits issued final flight := by
  induction requires with
  | done state queue => exact before
  | step _ required rest ih =>
      exact ih (simulates.require before required (rest.entails.met met)) met

/-- Pulling the waits of a clause to its front requires them one after the other. -/
theorem requires_of_pullClause {first : Instr} {rest : List Instr} {state final : State}
    {queue last : Queue} {clause : Option Clause} {joined : Nat}
    (pulled : pullClause setting first state queue clause rest = .ok (final, last, joined)) :
    Requires setting state queue final last := by
  induction rest generalizing state queue clause joined with
  | nil =>
      cases pulled
      exact .done _ _
  | cons next rest ih =>
      unfold pullClause at pulled
      split at pulled
      · -- A clause that has begun and one that begins here go on in the same way.
        rcases clause with _ | clause
        all_goals
          obtain ⟨started, _, pulled⟩ := Outcome.bind_eq_ok.mp pulled
          obtain ⟨extended, _, pulled⟩ := Outcome.bind_eq_ok.mp pulled
          cases extended with
          | none =>
              cases pulled
              exact .done _ _
          | some clause =>
              obtain ⟨⟨middle, passed⟩, demanded, pulled⟩ := Outcome.bind_eq_ok.mp pulled
              obtain ⟨footprint, touches, demanded⟩ := Outcome.bind_eq_ok.mp demanded
              obtain ⟨⟨after, asked, more⟩, rest, pulled⟩ := Outcome.bind_eq_ok.mp pulled
              cases pulled
              exact .step touches (Except.ok.inj demanded) (ih rest)
      · cases pulled
        exact .done _ _

/-- The transfer function crosses the first instruction and goes on with the rest. -/
theorem crosses_of_transferFrom {covered : Nat} {state final : State} {queue trailing : Queue}
    {instr : Instr} {rest : List Instr} {placed : List Placement}
    (ran : transferFrom setting covered state queue (instr :: rest) =
      .ok (final, trailing, placed)) :
    ∃ issued queued, Crosses setting state queue instr issued queued ∧
      Proceeds setting instr issued queued rest final trailing placed := by
  unfold transferFrom at ran
  dsimp only at ran
  obtain ⟨⟨passed, asked⟩, demanded, ran⟩ := Outcome.bind_eq_ok.mp ran
  obtain ⟨footprint, touches, demanded⟩ := Outcome.bind_eq_ok.mp demanded
  have required := Except.ok.inj demanded
  dsimp only at ran
  split at ran
  on_goal 1 =>
    obtain ⟨⟨ready, queued, joined⟩, pulled, ran⟩ := Outcome.bind_eq_ok.mp ran
    have clause := requires_of_pullClause pulled
  on_goal 2 => have clause : Requires setting passed asked passed asked := .done _ _
  -- Whether or not a clause begins here, the instruction is issued, and absorbed or placed.
  all_goals
    obtain ⟨_, same, ran⟩ := Outcome.bind_eq_ok.mp ran
    cases same
    obtain ⟨issued, issue, ran⟩ := Outcome.bind_eq_ok.mp ran
    refine ⟨issued, _, ⟨footprint, touches, required, clause, issue⟩, ?_⟩
    split at ran
    · exact .absorb ‹_› ran
    · rename_i kept
      obtain ⟨⟨_, _, others⟩, rest, done⟩ := Outcome.bind_eq_ok.mp ran
      cases done
      exact .place ((Bool.not_eq_true _).mp kept) rest

section Placing

variable {generation : Generation}

/-- The code of a schedule starts with the code of its first placement. -/
theorem Schedule.lower_cons {placement : Placement} {placed : List Placement} {trailing : Queue}
    {code : List Instr}
    (lowered : (Schedule.lower generation { placed := placement :: placed, trailing }).result =
      .ok code) :
    ∃ waits others, (placement.queue.lower generation).result = .ok waits ∧
      (Schedule.lower generation { placed, trailing }).result = .ok others ∧
      code = waits ++ placement.instr :: others := by
  obtain ⟨first, others, both, rest, rfl⟩ := Lowered.result_append_eq_ok lowered
  obtain ⟨waits, single, waiting, done, rfl⟩ := Lowered.result_append_eq_ok both
  cases done
  exact ⟨waits, others, waiting, rest, by simp⟩

@[simp] theorem opcode_absorbExports (queue : Queue) (instr : Instr) :
    (absorbExports queue instr).instr.opcode = instr.opcode := by
  unfold absorbExports
  split <;> rfl

@[simp] theorem definitions_absorbExports (queue : Queue) (instr : Instr) :
    (absorbExports queue instr).instr.definitions = instr.definitions := by
  unfold absorbExports
  split <;> rfl

@[simp] theorem sync_absorbExports (queue : Queue) (instr : Instr) :
    (absorbExports queue instr).instr.sync = instr.sync := by
  unfold absorbExports
  split
  · rename_i waitExp bound payload _
    unfold Instr.sync
    rw [payload]
  · rfl

/-- An instruction that takes over a wait for exports stays the same otherwise. -/
theorem operationsOf_absorbExports (queue : Queue) (instr : Instr) :
    operationsOf generation (absorbExports queue instr).instr = operationsOf generation instr := by
  unfold absorbExports
  split
  · rename_i waitExp bound payload _
    rcases instr with ⟨opcode, operands, definitions, _, scratch⟩
    cases payload
    rfl
  · rfl

/-- An instruction that takes over a wait sets the same operations in motion. -/
theorem launch_absorbExports (queue : Queue) (instr : Instr) :
    launch generation (absorbExports queue instr).instr = launch generation instr := by
  unfold launch
  rw [operationsOf_absorbExports]

/-- An ordinary instruction stays one when it takes over a wait. -/
theorem isOrdinary_absorbExports (queue : Queue) {instr : Instr}
    (ordinary : isOrdinary generation instr = true) :
    isOrdinary generation (absorbExports queue instr).instr = true := by
  unfold absorbExports
  split
  · unfold isOrdinary at ordinary ⊢
    rw [Bool.and_eq_true] at ordinary ⊢
    refine ⟨?_, ordinary.2⟩
    unfold Instr.wait?
    split <;> rfl
  · exact ordinary

/-- What is queued for an instruction has been met once its queue is and it no longer blocks. -/
theorem met_of_absorbExports {queue : Queue} {instr : Instr} {flight : Flight}
    (met : Met (absorbExports queue instr).queue.wait flight)
    (blocked : Met (blocksOn generation (absorbExports queue instr).instr) flight) :
    Met queue.wait flight := by
  unfold absorbExports at met blocked
  split at met
  · rename_i waitExp bound payload exports
    rw [payload, exports] at blocked
    intro counter threshold asked
    by_cases isExport : counter = .exp
    · subst isExport
      have same : bound = threshold := Option.some.inj (exports.symm.trans asked)
      have below := blocked .exp (min waitExp bound) rfl
      omega
    · refine met counter threshold ?_
      change (queue.wait.set .exp none).get counter = some threshold
      rw [Requirement.get_set, if_neg isExport, asked]
  · exact met

/-- A run past a placement has met what was queued for its instruction before it issued it. -/
theorem Runs.placement {queue : Queue} {instr : Instr} {waits others : List Instr}
    {flight final : Flight}
    (lowered : ((absorbExports queue instr).queue.lower generation).result = .ok waits)
    (runs : Runs generation flight (waits ++ (absorbExports queue instr).instr :: others) final)
    (counted : Counted generation flight) :
    ∃ ready, Drains generation flight ready ∧ Met queue.wait ready ∧
      Runs generation (ready ++ launch generation instr) others final := by
  obtain ⟨middle, waiting, rest⟩ := runs.split
  obtain ⟨drains, met⟩ := waiting.queue lowered counted
  obtain ⟨ready, more, blocked, after⟩ := rest.first
  rw [launch_absorbExports] at after
  exact ⟨ready, drains.trans more, met_of_absorbExports (met.drains more) blocked, after⟩

end Placing

section Ahead

/-- The state fits every flight that can follow and has met the queue. -/
structure Ahead (setting : Setting) (fits : State → Flight → Prop) (state : State) (queue : Queue)
    (flight : Flight) : Prop where
  counted : Counted setting.generation flight
  fits : ∀ next, Drains setting.generation flight next → Met queue.wait next → fits state next

variable {allowed : Instr → Prop} {fits : Flight → State → Flight → Prop}

namespace Ahead

variable {state after : State} {queue queued : Queue} {issued flight : Flight} {instr : Instr}

/-- A state that fits the flight fits every flight that can follow. -/
theorem of_fits (simulates : Simulates setting allowed fits) (here : fits issued state flight)
    (queue : Queue) : Ahead setting (fits issued) state queue flight where
  counted := simulates.counted here
  fits := fun _ drains _ => simulates.drains here drains

/-- A state that is ahead of a flight stays ahead when operations leave. -/
theorem drains {next : Flight} (ahead : Ahead setting (fits issued) state queue flight)
    (drains : Drains setting.generation flight next) :
    Ahead setting (fits issued) state queue next where
  counted := ahead.counted.drains drains
  fits := fun last more => ahead.fits last (drains.trans more)

/-- Behind an instruction, the state fits a flight that met its queue before it was issued. -/
theorem crosses (simulates : Simulates setting allowed fits)
    (ahead : Ahead setting (fits issued) state queue flight)
    (crosses : Crosses setting state queue instr after queued)
    (permitted : isAsynchronous setting.generation instr = true → allowed instr) {ready : Flight}
    (drains : Drains setting.generation flight ready) (met : Met queued.wait ready) :
    fits (issued ++ launch setting.generation instr) after
      (ready ++ launch setting.generation instr) := by
  obtain ⟨footprint, touches, required, clause, issue⟩ := crosses
  have asked := clause.entails.met met
  have before : Met queue.wait ready :=
    (((of_require required).1.trans (entails_combine_left _ _)).trans
      (entails_absorb state queue instr)).met asked
  have passed := simulates.require (ahead.fits ready drains before) required asked
  exact simulates.issueAll (clause.fits simulates passed met) issue permitted

/-- An instruction that is absorbed moves the state further ahead. -/
theorem absorb (simulates : Simulates setting allowed fits)
    (ahead : Ahead setting (fits issued) state queue flight)
    (crosses : Crosses setting state queue instr after queued)
    (absorbed : isAbsorbed setting.generation instr = true) :
    Ahead setting (fits issued) after queued flight where
  counted := ahead.counted
  fits := by
    intro next drains met
    have idle := operationsOf_of_isAbsorbed absorbed
    have permitted : isAsynchronous setting.generation instr = true → allowed instr := by
      intro asynchronous
      rw [isAsynchronous, idle] at asynchronous
      cases asynchronous
    have kept := ahead.crosses simulates crosses permitted drains met
    rw [launch_of_operationsOf idle, List.append_nil, List.append_nil] at kept
    exact kept

end Ahead

/-- The transfer function and the machine arrive together at every point of a block. What the
machine has run by then has as many ordinary instructions as the block keeps before that point. -/
theorem Simulates.arrives (simulates : Simulates setting allowed fits)
    {before after : List Instr} {covered : Nat} {state final : State}
    {queue trailing closing : Queue} {placed : List Placement} {code : List Instr}
    (ran : transferFrom setting covered state queue (before ++ after) =
      .ok (final, trailing, placed))
    (lowered : (Schedule.lower setting.generation { placed, trailing := closing }).result =
      .ok code)
    (permitted : ∀ instr ∈ before, allowed instr) :
    ∃ covered middle queued others crossed rest,
      transferFrom setting covered middle queued after = .ok (final, trailing, others) ∧
      (Schedule.lower setting.generation { placed := others, trailing := closing }).result =
        .ok rest ∧
      code = crossed ++ rest ∧
      crossed.countP (isOrdinary setting.generation) =
        before.countP (fun instr => !isAbsorbed setting.generation instr) ∧
      ∀ issued flight next, Ahead setting (fits issued) state queue flight →
        Runs setting.generation flight crossed next →
          Ahead setting (fits (issued ++ launched setting.generation crossed)) middle queued
            next := by
  induction before generalizing covered state queue placed code with
  | nil =>
      refine ⟨covered, state, queue, placed, [], code, ran, lowered, rfl, rfl, ?_⟩
      intro issued flight next ahead runs
      rw [launched, List.flatMap_nil, List.append_nil]
      exact ahead.drains runs.drains
  | cons instr before ih =>
      rw [List.cons_append] at ran
      obtain ⟨crossing, queued, crosses, proceeds⟩ := crosses_of_transferFrom ran
      have others : ∀ instr ∈ before, allowed instr :=
        fun other member => permitted other (List.mem_cons_of_mem _ member)
      cases proceeds with
      | absorb absorbed ran =>
          obtain ⟨covered, middle, last, placed, crossed, rest, ran, lowered, whole, counted,
            arrives⟩ := ih ran lowered others
          refine ⟨covered, middle, last, placed, crossed, rest, ran, lowered, whole, ?_, ?_⟩
          · rw [counted, List.countP_cons_of_neg (by simp [absorbed])]
          · intro issued flight next ahead runs
            exact arrives issued flight next (ahead.absorb simulates crosses absorbed) runs
      | place kept next =>
          obtain ⟨waits, behind, waiting, following, rfl⟩ := Schedule.lower_cons lowered
          obtain ⟨covered, middle, last, placed, crossed, rest, ran, remaining, rfl, counted,
            arrives⟩ := ih next following others
          have ordinary := isOrdinary_absorbExports queued (isOrdinary_of_not_isAbsorbed kept)
          have idle := countP_of_queue_lower waiting
          refine ⟨covered, middle, last, placed,
            waits ++ (absorbExports queued instr).instr :: crossed, rest, ran, remaining, by simp,
            ?_, ?_⟩
          · rw [List.countP_append, idle, List.countP_cons_of_pos ordinary, counted,
              List.countP_cons_of_pos (by simp [kept])]
            omega
          · intro issued flight next ahead runs
            obtain ⟨ready, drains, met, runs⟩ := runs.placement waiting ahead.counted
            have here :=
              ahead.crosses simulates crosses (fun _ => permitted instr List.mem_cons_self) drains
                met
            have there := arrives _ _ next (.of_fits simulates here _) runs
            rw [launched_append, launched_of_idle idle, List.nil_append]
            simpa [launched, launch_absorbExports] using there

end Ahead

end WaveHazard.Hazard
