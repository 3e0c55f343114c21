import WaveHazard.Hazard.Transfer
import WaveHazard.Proofs.Outcome
import WaveHazard.Proofs.Tally
import WaveHazard.Proofs.WaitEncoding

/-! # The code of a queue enforces the queue

The instructions a queue is lowered to launch nothing, and a run past them has met every threshold
of the queue. A threshold that is too large for its field is lowered to 0, so what the code waits
for is never less than what was asked for; thresholds on counters that the generation does not have
are dropped, and nothing is ever outstanding on those.
-/

namespace WaveHazard.Hazard

open Machine Wait

/-- Program control sets nothing in motion but messages. -/
theorem operationsOf_of_control {generation : Generation} {instr : Instr}
    (control : instr.encoding = .sopp ∨ instr.encoding = .sopk)
    (silent : instr.opcode ≠ .sSendmsg ∧ instr.opcode ≠ .sSendmsghalt) :
    operationsOf generation instr = [] := by
  unfold operationsOf
  rcases control with encoding | encoding
  · rw [encoding]
    simp [silent]
  · rw [encoding]

/-- An instruction without operations starts none. -/
theorem launch_of_operationsOf {generation : Generation} {instr : Instr}
    (idle : operationsOf generation instr = []) : launch generation instr = [] := by
  unfold launch
  rw [idle, List.flatMap_nil]

/-- A wait blocks on what it asks for and sets nothing in motion. -/
theorem of_wait? {generation : Generation} {instr : Instr} {wait : Requirement}
    (waits : instr.wait? generation = some wait) :
    blocksOn generation instr = wait ∧ operationsOf generation instr = [] ∧
      isOrdinary generation instr = false := by
  refine ⟨?_, ?_, ?_⟩
  · unfold blocksOn
    split
    · rename_i waitExp payload
      unfold Instr.wait? Instr.imm? at waits
      rw [payload] at waits
      split at waits <;> cases waits
    · rw [waits]
      rfl
  · unfold Instr.wait? at waits
    split at waits
    · split at waits
      · cases waits
      · split at waits
        case h_15 => cases waits
        all_goals
          rename_i opcode
          apply operationsOf_of_control
          · unfold Instr.encoding
            rw [opcode]
            decide
          · rw [opcode]
            decide
    · cases waits
  · unfold isOrdinary
    rw [waits]
    rfl

/-- A delay sets nothing in motion. -/
theorem of_delay {generation : Generation} {instr : Instr} (delays : instr.opcode = .sDelayAlu) :
    operationsOf generation instr = [] ∧ isOrdinary generation instr = false := by
  constructor
  · apply operationsOf_of_control
    · unfold Instr.encoding
      rw [delays]
      decide
    · rw [delays]
      decide
  · unfold isOrdinary
    rw [delays]
    simp

/-- An instruction that is replaced by the waits it asks for sets nothing in motion. -/
theorem operationsOf_of_isAbsorbed {generation : Generation} {instr : Instr}
    (absorbed : isAbsorbed generation instr = true) : operationsOf generation instr = [] := by
  unfold isAbsorbed at absorbed
  simp only [Bool.or_eq_true, beq_iff_eq] at absorbed
  rcases absorbed with (waits | barrier) | delays
  · obtain ⟨wait, found⟩ := Option.isSome_iff_exists.mp waits
    exact (of_wait? found).2.1
  · unfold operationsOf
    rw [beq_iff_eq.mp barrier]
  · exact (of_delay delays).1

/-- What remains of a block is ordinary. -/
theorem isOrdinary_of_not_isAbsorbed {generation : Generation} {instr : Instr}
    (kept : isAbsorbed generation instr = false) : isOrdinary generation instr = true := by
  unfold isAbsorbed at kept
  simp only [Bool.or_eq_false_iff] at kept
  unfold isOrdinary
  rw [← Option.not_isSome, kept.1.1, bne, kept.2]
  rfl

/-- Waits and delays are replaced by what they ask for. -/
theorem isAbsorbed_of_not_isOrdinary {generation : Generation} {instr : Instr}
    (idle : isOrdinary generation instr = false) : isAbsorbed generation instr = true := by
  cases kept : isAbsorbed generation instr with
  | true => rfl
  | false => rw [isOrdinary_of_not_isAbsorbed kept] at idle; cases idle

/-- What issuing some code adds to the flight. -/
def launched (generation : Generation) (code : List Instr) : Flight :=
  code.flatMap (launch generation)

theorem launched_append (generation : Generation) (first second : List Instr) :
    launched generation (first ++ second) =
      launched generation first ++ launched generation second :=
  List.flatMap_append

/-- Code without ordinary instructions sets nothing in motion. -/
theorem launched_of_idle {generation : Generation} {code : List Instr}
    (idle : code.countP (isOrdinary generation) = 0) : launched generation code = [] := by
  rw [launched, List.flatMap_eq_nil_iff]
  intro instr member
  have plain := List.countP_eq_zero.mp idle instr member
  exact launch_of_operationsOf
    (operationsOf_of_isAbsorbed (isAbsorbed_of_not_isOrdinary (eq_false_of_ne_true plain)))

/-- Some instruction of the code waits for a counter to reach a threshold or less. -/
def WaitsFor (generation : Generation) (code : List Instr) (counter : Counter) (bound : Nat) :
    Prop :=
  ∃ instr ∈ code, ∃ wait tighter, instr.wait? generation = some wait ∧
    wait.get counter = some tighter ∧ tighter ≤ bound

/-- More code waits for as much. -/
theorem WaitsFor.mono {generation : Generation} {code more : List Instr} {counter : Counter}
    {bound : Nat} (waits : WaitsFor generation code counter bound) (inside : code ⊆ more) :
    WaitsFor generation more counter bound := by
  obtain ⟨instr, member, rest⟩ := waits
  exact ⟨instr, inside member, rest⟩

variable {generation : Generation}

/-- A requirement that is cut to the fields of the generation asks for at least as much. -/
theorem entails_clamp (generation : Generation) (wait : Requirement) :
    Entails (wait.clamp generation) wait := by
  intro counter bound asked
  refine ⟨if generation.maxThreshold counter < bound then 0 else bound, ?_, ?_⟩
  · unfold Requirement.clamp
    rw [Requirement.get_ofFn, asked]
    rfl
  · split
    · exact Nat.zero_le bound
    · exact Nat.le_refl bound

/-- Whatever is counted by a counter, there are instructions that wait for it. -/
theorem waitsOn_of_counted {counter : Counter} {event : Event}
    (counted : (generation.counted counter).holds event = true) :
    generation.waitsOn counter = true := by
  rw [Generation.holds_counted] at counted
  unfold Generation.waitsOn
  cases counter <;> cases event <;> simp_all

/-- The code of a requirement consists of waits, and waits for every counter that there is. -/
theorem waitsFor_of_lower {wait : Requirement} {code : List Instr}
    (lowered : wait.lower generation = .ok code) :
    (∀ instr ∈ code, (instr.wait? generation).isSome) ∧
      ∀ counter bound event, wait.get counter = some bound →
        (generation.counted counter).holds event = true →
          WaitsFor generation code counter bound := by
  obtain ⟨waits, reads⟩ := Requirement.awaited_lower lowered
  refine ⟨waits, fun counter bound event asked counted => ?_⟩
  obtain ⟨tighter, strict, below⟩ := entails_clamp generation wait counter bound asked
  have read : (awaited generation code).get counter = some tighter := by
    rw [reads, Requirement.get_only, waitsOn_of_counted counted, if_pos rfl, strict]
  obtain ⟨instr, member, given, found, least⟩ := exists_of_get_awaited read
  exact ⟨instr, member, given, tighter, found, least, below⟩

/-- One lowering after the other succeeds when both do. -/
theorem Lowered.result_append_eq_ok {first second : Lowered} {code : List Instr}
    (lowered : (first.append second).result = .ok code) :
    ∃ before after, first.result = .ok before ∧ second.result = .ok after ∧
      code = before ++ after := by
  unfold Lowered.append at lowered
  split at lowered
  · rename_i failed
    rw [failed] at lowered
    cases lowered
  · rename_i before found
    obtain ⟨after, rest, rfl⟩ := Outcome.map_eq_ok.mp lowered
    exact ⟨before, after, found, rest, rfl⟩

/-- A delay becomes a delay instruction. -/
theorem opcode_of_delay_lower {delay : Delay} {instr : Instr} (lowered : delay.lower = .ok instr) :
    instr.opcode = .sDelayAlu := by
  unfold Delay.lower at lowered
  extract_lets trans both proceed cycles at lowered
  split at lowered
  · split at lowered
    · cases lowered
      rfl
    · cases lowered
  · cases lowered
    rfl

/-- The code of a queue consists of waits and delays, and waits for every counter that there
is. -/
theorem waitsFor_of_queue_lower {queue : Queue} {code : List Instr}
    (lowered : (queue.lower generation).result = .ok code) :
    (∀ instr ∈ code, launch generation instr = [] ∧ isOrdinary generation instr = false) ∧
      ∀ counter bound event, queue.wait.get counter = some bound →
        (generation.counted counter).holds event = true →
          WaitsFor generation code counter bound := by
  unfold Queue.lower at lowered
  dsimp only at lowered
  obtain ⟨waits, delays, waiting, delaying, rfl⟩ := Lowered.result_append_eq_ok lowered
  have waitsCode : (∀ instr ∈ waits, (instr.wait? generation).isSome) ∧
      ∀ counter bound event, queue.wait.get counter = some bound →
        (generation.counted counter).holds event = true →
          WaitsFor generation waits counter bound := by
    split at waiting
    · rename_i empty
      cases waiting
      refine ⟨fun _ member => absurd member List.not_mem_nil, ?_⟩
      intro counter bound _ asked _
      have unset := List.all_eq_true.mp empty counter counter.mem_all
      simp [Requirement.isSet, asked] at unset
    · exact waitsFor_of_lower waiting
  constructor
  · intro instr member
    rcases List.mem_append.mp member with first | second
    · obtain ⟨wait, found⟩ := Option.isSome_iff_exists.mp (waitsCode.1 instr first)
      exact ⟨launch_of_operationsOf (of_wait? found).2.1, (of_wait? found).2.2⟩
    · split at delaying
      · cases delaying
        exact absurd second List.not_mem_nil
      · obtain ⟨delay, done, rfl⟩ := Outcome.map_eq_ok.mp delaying
        rw [List.mem_singleton.mp second]
        have opcode := opcode_of_delay_lower done
        exact ⟨launch_of_operationsOf (of_delay opcode).1, (of_delay opcode).2⟩
  · intro counter bound event asked counted
    exact (waitsCode.2 counter bound event asked counted).mono (List.subset_append_left _ _)

/-- The code of a queue has no ordinary instructions. -/
theorem countP_of_queue_lower {queue : Queue} {code : List Instr}
    (lowered : (queue.lower generation).result = .ok code) :
    code.countP (isOrdinary generation) = 0 := by
  rw [List.countP_eq_zero]
  intro instr member
  rw [((waitsFor_of_queue_lower lowered).1 instr member).2]
  exact Bool.false_ne_true

/-- Whether every operation is outstanding on a counter that counts its event. -/
def Counted (generation : Generation) (flight : Flight) : Prop :=
  ∀ token ∈ flight, (generation.counted token.counter).holds token.operation.event = true

/-- Operations that complete leave the others on their counters. -/
theorem Counted.drains {flight next : Flight} (counted : Counted generation flight)
    (drains : Drains generation flight next) : Counted generation next :=
  fun token member => counted token (mem_of_drains drains member)

/-- A run past the code of a queue only lets operations leave, and has met the queue. -/
theorem Runs.queue {queue : Queue} {code : List Instr} {flight final : Flight}
    (lowered : (queue.lower generation).result = .ok code)
    (runs : Runs generation flight code final) (counted : Counted generation flight) :
    Drains generation flight final ∧ Met queue.wait final := by
  obtain ⟨idle, waitsFor⟩ := waitsFor_of_queue_lower lowered
  obtain ⟨drains, blocked⟩ := runs.drains_of_idle fun instr member => (idle instr member).1
  refine ⟨drains, met_of_outstanding_pos ?_⟩
  intro counter bound asked busy
  obtain ⟨token, member, here⟩ := List.countP_pos_iff.mp busy
  have event := counted.drains drains token member
  rw [of_decide_eq_true here] at event
  obtain ⟨instr, found, wait, tighter, waits, given, below⟩ :=
    waitsFor counter bound _ asked event
  have met := blocked instr found
  rw [(of_wait? waits).1] at met
  exact Nat.le_trans (met counter tighter given) below

end WaveHazard.Hazard
