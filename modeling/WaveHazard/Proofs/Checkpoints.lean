import WaveHazard.Proofs.Transit

/-! # What holds where the machine stands

The machine stands where it is about to issue an ordinary instruction or has reached the end of a
block. There it has met everything that was queued since the last ordinary instruction, so the
state of the analysis fits the flight and the waits that the analysis asked for are over.

A point of a block and a point of its code belong together when the same number of ordinary
instructions comes before them. The code at the point of an instruction that is absorbed is the next
ordinary instruction, or the end.
-/

namespace WaveHazard.Hazard

open Machine Wait

/-- The machine has run some code and is about to issue an ordinary instruction, or at the end. -/
structure Stands (generation : Generation) (start : Flight) (passed ahead : List Instr)
    (flight : Flight) : Prop where
  runs : Runs generation start passed flight
  about : ∀ instr rest, ahead = instr :: rest →
    isOrdinary generation instr = true ∧ Met (blocksOn generation instr) flight

/-- Code that stands in front of an instruction can be run in two parts. -/
theorem Stands.split {generation : Generation} {start flight : Flight}
    {first second ahead : List Instr}
    (stands : Stands generation start (first ++ second) ahead flight) :
    ∃ middle, Runs generation start first middle ∧
      Stands generation middle second ahead flight := by
  obtain ⟨middle, before, after⟩ := stands.runs.split
  exact ⟨middle, before, after, stands.about⟩

section Places

variable {α : Type} {kept : α → Bool}

/-- Code that has passed as many ordinary instructions as a prefix, and stands in front of another
one or at the end, has passed the prefix. -/
theorem exists_between (more : Nat) {crossed rest passed ahead : List α}
    (same : crossed ++ rest = passed ++ ahead)
    (stands : ∀ item others, ahead = item :: others → kept item = true)
    (count : passed.countP kept = crossed.countP kept + more) :
    ∃ between, passed = crossed ++ between ∧ rest = between ++ ahead ∧
      between.countP kept = more := by
  have arrange (between : List α) (whole : passed = crossed ++ between)
      (remains : rest = between ++ ahead) : ∃ between, passed = crossed ++ between ∧
        rest = between ++ ahead ∧ between.countP kept = more := by
    refine ⟨between, whole, remains, ?_⟩
    rw [whole, List.countP_append] at count
    omega
  rcases List.append_eq_append_iff.mp same with ⟨between, whole, remains⟩ | ⟨excess, whole, remains⟩
  · exact arrange between whole remains
  · cases excess with
    | nil =>
        rw [List.append_nil] at whole
        exact arrange [] (by rw [List.append_nil, whole]) remains.symm
    | cons item others =>
        have ordinary := stands item (others ++ rest) (by simpa using remains)
        rw [whole, List.countP_append, List.countP_cons_of_pos ordinary] at count
        omega

/-- The item behind a number of kept ones. -/
theorem exists_kept {items : List α} {count : Nat} (few : count < items.countP kept) :
    ∃ before item after, items = before ++ item :: after ∧ kept item = true ∧
      before.countP kept = count := by
  induction items generalizing count with
  | nil => exact absurd few (Nat.not_lt_zero count)
  | cons first rest ih =>
      by_cases here : kept first = true
      · cases count with
        | zero => exact ⟨[], first, rest, rfl, here, rfl⟩
        | succ count =>
            rw [List.countP_cons_of_pos here] at few
            obtain ⟨before, item, after, rfl, found, counted⟩ := ih (Nat.lt_of_succ_lt_succ few)
            exact ⟨first :: before, item, after, rfl, found, by
              rw [List.countP_cons_of_pos here, counted]⟩
      · rw [List.countP_cons_of_neg here] at few
        obtain ⟨before, item, after, rfl, found, counted⟩ := ih few
        exact ⟨first :: before, item, after, rfl, found, by
          rw [List.countP_cons_of_neg here, counted]⟩

end Places

variable {setting : Setting}

/-- What blocks first in a schedule asks for at least a given requirement. -/
def Opens (generation : Generation) (wait : Requirement) (closing : Queue) :
    List Placement → Prop
  | [] => Entails closing.wait wait
  | placement :: _ => ∃ ready instr, placement = absorbExports ready instr ∧
      isAbsorbed generation instr = false ∧ Entails ready.wait wait

/-- What is asked for first may be weakened. -/
theorem Opens.mono {generation : Generation} {strict loose : Requirement} {closing : Queue}
    {placed : List Placement} (opens : Opens generation strict closing placed)
    (entails : Entails strict loose) : Opens generation loose closing placed := by
  cases placed with
  | nil => exact Entails.trans opens entails
  | cons placement others =>
      obtain ⟨ready, instr, same, kept, more⟩ := opens
      exact ⟨ready, instr, same, kept, more.trans entails⟩

/-- The queue of a crossed instruction asks for what was queued and what the instruction needs. -/
theorem Crosses.entails {state issued : State} {queue queued : Queue} {instr : Instr}
    (crosses : Crosses setting state queue instr issued queued) :
    Entails queued.wait queue.wait := by
  obtain ⟨footprint, touches, required, clause, issue⟩ := crosses
  have asked := (of_require required).1.trans (entails_combine_left _ _)
  exact (clause.entails.trans asked).trans (entails_absorb state queue instr)

/-- Everything in the queue is asked for before the next instruction, or at the end. -/
theorem opens_of_transferFrom {covered : Nat} {state final : State} {queue trailing : Queue}
    {instrs : List Instr} {placed : List Placement}
    (ran : transferFrom setting covered state queue instrs = .ok (final, trailing, placed))
    {closing : Queue} (closes : Entails closing.wait trailing.wait) :
    Opens setting.generation queue.wait closing placed := by
  induction instrs generalizing covered state queue placed with
  | nil =>
      cases ran
      exact closes
  | cons instr rest ih =>
      obtain ⟨issued, queued, crosses, proceeds⟩ := crosses_of_transferFrom ran
      cases proceeds with
      | absorb _ next => exact (ih next).mono crosses.entails
      | place kept _ => exact ⟨queued, instr, rfl, kept, crosses.entails⟩

/-- Where the machine stands behind the waits of a schedule, it has met what opens it, and is about
to issue the first instruction. -/
theorem Opens.met {generation : Generation} {wait : Requirement} {closing : Queue}
    {placed : List Placement} {code passed ahead : List Instr} {start flight : Flight}
    (opens : Opens generation wait closing placed)
    (lowered : (Schedule.lower generation { placed, trailing := closing }).result = .ok code)
    (whole : code = passed ++ ahead) (idle : passed.countP (isOrdinary generation) = 0)
    (stands : Stands generation start passed ahead flight)
    (counted : Counted generation start) :
    Drains generation start flight ∧ Met wait flight ∧
      ∀ placement others, placed = placement :: others →
        ∃ rest, ahead = placement.instr :: rest := by
  cases placed with
  | nil =>
      have trailing : (closing.lower generation).result = .ok code := lowered
      have atEnd : ahead = [] := by
        cases ahead with
        | nil => rfl
        | cons instr rest =>
            have plain := ((waitsFor_of_queue_lower trailing).1 instr (by simp [whole])).2
            rw [(stands.about instr rest rfl).1] at plain
            cases plain
      subst atEnd
      rw [List.append_nil] at whole
      subst whole
      obtain ⟨drains, met⟩ := stands.runs.queue trailing counted
      refine ⟨drains, Entails.met opens met, ?_⟩
      intro placement others same
      cases same
  | cons placement others =>
      obtain ⟨ready, source, rfl, kept, entails⟩ := opens
      obtain ⟨waits, behind, waiting, _, split⟩ := Schedule.lower_cons lowered
      have ordinary := isOrdinary_absorbExports ready (isOrdinary_of_not_isAbsorbed kept)
      have noOrdinary : waits.countP (isOrdinary generation) = 0 := countP_of_queue_lower waiting
      obtain ⟨between, rfl, remains, empty⟩ := exists_between 0 (split.symm.trans whole)
        (fun instr rest here => (stands.about instr rest here).1)
        (idle.trans noOrdinary.symm)
      have here : between = [] := by
        cases between with
        | nil => rfl
        | cons first rest =>
            rw [← (List.cons.inj remains).1, List.countP_cons_of_pos ordinary] at empty
            cases empty
      subst here
      rw [List.append_nil] at stands
      subst remains
      obtain ⟨drains, met⟩ := stands.runs.queue waiting counted
      have ready := met_of_absorbExports met (stands.about _ _ rfl).2
      refine ⟨drains, entails.met ready, ?_⟩
      rintro placement others same
      cases same
      exact ⟨behind, rfl⟩

section Blocks

variable {block : Block} {state left : State} {schedule : Schedule} {code : List Instr}

/-- A block is run by the transfer function, and closes with a queue that asks for no less than what
is queued at its end. -/
theorem transferFrom_of_transfer (transfer : block.transfer setting state = .ok (left, schedule)) :
    ∃ trailing, transferFrom setting 0 state ∅ block.instrs =
        .ok (left, trailing, schedule.placed) ∧
      Entails schedule.trailing.wait trailing.wait ∧
      (block.is BlockKind.endWithRegs = true →
        schedule.trailing.wait = left.drainAll trailing.wait) := by
  obtain ⟨⟨final, trailing, placed⟩, ran, done⟩ := Outcome.bind_eq_ok.mp transfer
  cases done
  refine ⟨trailing, ran, ?_, ?_⟩
  · dsimp only
    split
    · exact entails_drain _ _
    · exact Entails.refl _
  · intro hands
    dsimp only
    rw [if_pos hands]

variable {strict : Prop} {start flight : Flight} {passed ahead : List Instr}

namespace Simulates

variable {allowed : Instr → Prop} {fits : Flight → State → Flight → Prop} {issued : Flight}

/-- Where the machine stands at the point of an instruction, the waits that the analysis required
for that instruction are over. An instruction that remains is issued next. -/
theorem required_at (simulates : Simulates setting allowed fits)
    (transfer : block.transfer setting state = .ok (left, schedule))
    (lowered : (schedule.lower setting.generation).result = .ok code)
    {before after : List Instr} {source : Instr} (place : block.instrs = before ++ source :: after)
    (permitted : ∀ instr ∈ before, allowed instr)
    (whole : code = passed ++ ahead)
    (count : passed.countP (isOrdinary setting.generation) =
      before.countP fun instr => !isAbsorbed setting.generation instr)
    (entered : fits issued state start)
    (stands : Stands setting.generation start passed ahead flight) :
    ∃ middle queue footprint next asked, source.footprint = .ok footprint ∧
      State.require setting middle queue source footprint source.sync = (next, asked) ∧
      fits (issued ++ launched setting.generation passed) middle flight ∧ Met asked.wait flight ∧
      (isAbsorbed setting.generation source = false →
        ∃ ready rest, ahead = (absorbExports ready source).instr :: rest) := by
  obtain ⟨trailing, ran, closes, _⟩ := transferFrom_of_transfer transfer
  rw [place] at ran
  obtain ⟨covered, middle, queued, others, crossed, rest, ran, remaining, rfl, counted, arrives⟩ :=
    simulates.arrives ran lowered permitted
  obtain ⟨between, rfl, rfl, idle⟩ := exists_between 0 whole
    (fun instr rest here => (stands.about instr rest here).1) (count.trans counted.symm)
  obtain ⟨reached, runs, stands⟩ := stands.split
  have reaching := arrives issued start reached (.of_fits simulates entered ∅) runs
  obtain ⟨crossing, last, crosses, proceeds⟩ := crosses_of_transferFrom ran
  have opens : Opens setting.generation last.wait schedule.trailing others := by
    cases proceeds with
    | absorb _ next => exact opens_of_transferFrom next closes
    | place kept _ => exact ⟨last, source, rfl, kept, Entails.refl _⟩
  obtain ⟨drains, met, first⟩ := opens.met remaining rfl idle stands reaching.counted
  have here := reaching.fits flight drains (crosses.entails.met met)
  obtain ⟨footprint, touches, required, clause, _⟩ := crosses
  refine ⟨middle, _, footprint, _, _, touches, required, ?_, clause.entails.met met, ?_⟩
  · rw [launched_append, launched_of_idle idle, List.append_nil]
    exact here
  intro kept
  cases proceeds with
  | absorb absorbed _ =>
      rw [kept] at absorbed
      cases absorbed
  | place _ _ => exact ⟨last, first _ _ rfl⟩

/-- Where the machine stands behind an instruction, the waits that became due with its issue are
over. -/
theorem due_at (simulates : Simulates setting allowed fits)
    (transfer : block.transfer setting state = .ok (left, schedule))
    (lowered : (schedule.lower setting.generation).result = .ok code)
    {before after : List Instr} {source : Instr} (place : block.instrs = before ++ source :: after)
    (permitted : ∀ instr ∈ before ++ [source], allowed instr)
    (kept : isAbsorbed setting.generation source = false) (whole : code = passed ++ ahead)
    (count : passed.countP (isOrdinary setting.generation) =
      before.countP (fun instr => !isAbsorbed setting.generation instr) + 1)
    (entered : fits issued state start)
    (stands : Stands setting.generation start passed ahead flight) :
    ∃ crossing, fits (issued ++ launched setting.generation passed) crossing flight ∧
      Met (State.afterIssue setting crossing source) flight := by
  obtain ⟨trailing, ran, closes, _⟩ := transferFrom_of_transfer transfer
  rw [place] at ran
  obtain ⟨covered, middle, queued, others, crossed, rest, ran, remaining, rfl, counted, arrives⟩ :=
    simulates.arrives ran lowered fun instr member =>
      permitted instr (List.mem_append_left _ member)
  obtain ⟨crossing, last, crosses, proceeds⟩ := crosses_of_transferFrom ran
  cases proceeds with
  | absorb absorbed _ =>
      rw [kept] at absorbed
      cases absorbed
  | place _ next =>
      obtain ⟨waits, behind, waiting, following, rfl⟩ := Schedule.lower_cons remaining
      have ordinary := isOrdinary_absorbExports last (isOrdinary_of_not_isAbsorbed kept)
      have upto : (crossed ++ (waits ++ [(absorbExports last source).instr])).countP
          (isOrdinary setting.generation) = passed.countP (isOrdinary setting.generation) := by
        rw [count, ← counted, List.countP_append, List.countP_append, countP_of_queue_lower waiting,
          List.countP_singleton, if_pos ordinary]
      have whole : crossed ++ (waits ++ [(absorbExports last source).instr]) ++ behind =
          passed ++ ahead := by
        rw [← whole]
        simp
      obtain ⟨between, rfl, rfl, idle⟩ := exists_between 0 whole
        (fun instr rest here => (stands.about instr rest here).1) upto.symm
      obtain ⟨issuing, runs, stands⟩ := stands.split
      obtain ⟨reached, before, placing⟩ := runs.split
      have reaching := arrives issued start reached (.of_fits simulates entered ∅) before
      obtain ⟨ready, drains, met, after⟩ := placing.placement waiting reaching.counted
      have here := reaching.crosses simulates crosses (fun _ => permitted source (by simp)) drains
        met
      have due := Ahead.of_fits simulates (simulates.drains here after.drains)
        { wait := crossing.afterIssue setting source }
      obtain ⟨drains, met, _⟩ := (opens_of_transferFrom next closes).met following rfl idle stands
        due.counted
      refine ⟨crossing, ?_, met⟩
      have since : launched setting.generation
          (crossed ++ (waits ++ [(absorbExports last source).instr]) ++ between) =
          launched setting.generation crossed ++ launch setting.generation source := by
        rw [launched_append, launched_append, launched_append, launched_of_idle idle,
          launched_of_idle (countP_of_queue_lower waiting), List.append_nil, List.nil_append,
          launched, launched, List.flatMap_singleton, launch_absorbExports]
      rw [since, ← List.append_assoc]
      exact due.fits flight drains met

/-- At the end of a block the state it leaves fits the flight, and what closes it is over. -/
theorem left_at_end (simulates : Simulates setting allowed fits)
    (transfer : block.transfer setting state = .ok (left, schedule))
    (lowered : (schedule.lower setting.generation).result = .ok code)
    (permitted : ∀ instr ∈ block.instrs, allowed instr)
    (entered : fits issued state start) (runs : Runs setting.generation start code flight) :
    fits (issued ++ launched setting.generation code) left flight ∧
      Met schedule.trailing.wait flight := by
  obtain ⟨trailing, ran, closes, _⟩ := transferFrom_of_transfer transfer
  rw [← List.append_nil block.instrs] at ran
  obtain ⟨covered, middle, queued, others, crossed, rest, ran, lowered, rfl, _, arrives⟩ :=
    simulates.arrives ran lowered permitted
  obtain ⟨reached, before, after⟩ := runs.split
  have reaching := arrives issued start reached (.of_fits simulates entered ∅) before
  cases ran
  have trailing : (schedule.trailing.lower setting.generation).result = .ok rest := lowered
  obtain ⟨drains, met⟩ := after.queue trailing reaching.counted
  refine ⟨?_, met⟩
  rw [launched_append, launched_of_idle (countP_of_queue_lower trailing), List.append_nil]
  exact reaching.fits flight drains (closes.met met)

end Simulates

variable {invariant : State → Token → Nat → Prop}

/-- Where the machine stands at the point of an instruction, an invariant holds of the flight, and
the waits that the analysis required for that instruction are over. -/
theorem required_at (upheld : Upheld setting strict invariant)
    (transfer : block.transfer setting state = .ok (left, schedule))
    (lowered : (schedule.lower setting.generation).result = .ok code)
    {before after : List Instr} {source : Instr} (place : block.instrs = before ++ source :: after)
    (single : ∀ instr ∈ before, strict → HasSingleResult setting.generation instr)
    (whole : code = passed ++ ahead)
    (count : passed.countP (isOrdinary setting.generation) =
      before.countP fun instr => !isAbsorbed setting.generation instr)
    (tallied : Tallied setting.generation (invariant state) start)
    (stands : Stands setting.generation start passed ahead flight) :
    ∃ middle queue footprint next asked, source.footprint = .ok footprint ∧
      State.require setting middle queue source footprint source.sync = (next, asked) ∧
      Tallied setting.generation (invariant middle) flight ∧ Met asked.wait flight ∧
      (isAbsorbed setting.generation source = false →
        ∃ ready rest, ahead = (absorbExports ready source).instr :: rest) :=
  @Simulates.required_at setting _ _ _ _ _ _ _ _ _ _ _ [] upheld.simulates transfer lowered _ _ _
    place single whole count tallied stands

/-- Where the machine stands behind an instruction, an invariant holds of the flight, and the waits
that became due with its issue are over. -/
theorem due_at (upheld : Upheld setting strict invariant)
    (transfer : block.transfer setting state = .ok (left, schedule))
    (lowered : (schedule.lower setting.generation).result = .ok code)
    {before after : List Instr} {source : Instr} (place : block.instrs = before ++ source :: after)
    (single : ∀ instr ∈ before ++ [source], strict → HasSingleResult setting.generation instr)
    (kept : isAbsorbed setting.generation source = false) (whole : code = passed ++ ahead)
    (count : passed.countP (isOrdinary setting.generation) =
      before.countP (fun instr => !isAbsorbed setting.generation instr) + 1)
    (tallied : Tallied setting.generation (invariant state) start)
    (stands : Stands setting.generation start passed ahead flight) :
    ∃ issued, Tallied setting.generation (invariant issued) flight ∧
      Met (State.afterIssue setting issued source) flight :=
  @Simulates.due_at setting _ _ _ _ _ _ _ _ _ _ _ [] upheld.simulates transfer lowered _ _ _
    place single kept whole count tallied stands

/-- At the end of a block an invariant holds of the state it leaves and the flight, and what closes
it is over. -/
theorem left_at_end (upheld : Upheld setting strict invariant)
    (transfer : block.transfer setting state = .ok (left, schedule))
    (lowered : (schedule.lower setting.generation).result = .ok code)
    (single : ∀ instr ∈ block.instrs, strict → HasSingleResult setting.generation instr)
    (tallied : Tallied setting.generation (invariant state) start)
    (runs : Runs setting.generation start code flight) :
    Tallied setting.generation (invariant left) flight ∧ Met schedule.trailing.wait flight :=
  @Simulates.left_at_end setting _ _ _ _ _ _ _ _ _ [] upheld.simulates transfer lowered single
    tallied runs

/-- An ordinary instruction of the code comes from an instruction of the block. -/
theorem exists_source (transfer : block.transfer setting state = .ok (left, schedule))
    (lowered : (schedule.lower setting.generation).result = .ok code) {instr : Instr}
    {rest : List Instr} (whole : code = passed ++ instr :: rest)
    (ordinary : isOrdinary setting.generation instr = true) :
    ∃ before source after, block.instrs = before ++ source :: after ∧
      isAbsorbed setting.generation source = false ∧
      passed.countP (isOrdinary setting.generation) =
        before.countP fun instr => !isAbsorbed setting.generation instr := by
  obtain ⟨trailing, ran, _, _⟩ := transferFrom_of_transfer transfer
  rw [← List.append_nil block.instrs] at ran
  obtain ⟨covered, middle, queued, others, crossed, closing, ran, lowered, same, counted, _⟩ :=
    (upheld_fenced setting).simulates.arrives ran lowered fun _ _ => False.elim
  cases ran
  have trailing : (schedule.trailing.lower setting.generation).result = .ok closing := lowered
  have idle := countP_of_queue_lower trailing
  have few : passed.countP (isOrdinary setting.generation) <
      block.instrs.countP fun instr => !isAbsorbed setting.generation instr := by
    have total := congrArg (List.countP (isOrdinary setting.generation)) (whole.symm.trans same)
    rw [List.countP_append, List.countP_append, List.countP_cons_of_pos ordinary] at total
    omega
  obtain ⟨before, source, after, place, kept, count⟩ := exists_kept few
  exact ⟨before, source, after, place, by simpa using kept, count.symm⟩

end Blocks

end WaveHazard.Hazard
