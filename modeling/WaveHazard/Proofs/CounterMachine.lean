import Mathlib.Logic.Relation
import WaveHazard.Hazard.Effect
import WaveHazard.Proofs.EventSets

/-! # The counter machine

What the hardware does with asynchronous operations, as far as waits can tell. Issuing an
instruction puts operations in flight. An operation is outstanding on every counter of its event,
and leaves each of them on its own. On one counter the operations of one event leave in the order
of issue, unless the generation completes the event out of order; operations of different events
leave in any order. A wait blocks until no more operations than its threshold are outstanding.

The machine knows nothing of the analysis. It reads off an instruction what the instruction sets in
motion, and a run of it is any interleaving of issued instructions with operations that leave.
-/

namespace WaveHazard.Hazard

open Machine Wait

/-- The slots of a list that are inside of the register file. -/
def resolved (slots : List (Except Fault Slot)) : List Slot := slots.filterMap Except.toOption

/-- An asynchronous operation. -/
structure Operation where
  event : Event
  sync : Sync := {}
  /-- The registers that hold garbage until the operation completes. -/
  writes : List Slot := []
  /-- The registers that the operation reads at any time until it completes. -/
  locks : List Slot := []
deriving DecidableEq, Inhabited

/-- An operation that is outstanding on a counter. -/
structure Token where
  operation : Operation
  counter : Counter
deriving DecidableEq, Inhabited

/-- What is outstanding, oldest first. -/
abbrev Flight := List Token

/-- The operations of a vector memory access. On GFX6 the data of a store is read late. -/
def vectorMemoryOperations (generation : Generation) (instr : Instr) : List Operation :=
  let access : Operation :=
    { event := loadEvent generation instr (loadKind instr), sync := instr.sync,
      writes := resolved instr.writes }
  match if generation = .gfx6 then Effect.storeData? instr else none with
  | some data => [access, { event := .vmemGprLock, locks := resolved data.slots }]
  | none => [access]

/-- The operations that an instruction sets in motion. Exports and global data share read their
registers late. -/
def operationsOf (generation : Generation) (instr : Instr) : List Operation :=
  let writes := resolved instr.writes
  let lanes := resolved Effect.execOperand.slots
  match instr.encoding with
  | .exp =>
      match instr.payload with
      | .exportTo target enabledMask compressed _ =>
          let read := (Effect.exportOperands enabledMask compressed).flatMap fun position =>
            (instr.operands[position]?.map Operand.slots).getD []
          [{ event := Effect.exportEvent target, locks := resolved read ++ lanes }]
      | _ => []
  | .flat => [{ event := .flat, sync := instr.sync, writes }]
  | .smem => [{ event := .smem, sync := instr.sync, writes }]
  | .ds =>
      if instr.isGlobalDataShare then
        [{ event := .gds, sync := instr.sync, writes },
         { event := .gdsGprLock, locks := resolved instr.reads ++ lanes }]
      else [{ event := .lds, sync := instr.sync, writes }]
  | .ldsdir => [{ event := .ldsdir, sync := instr.sync, writes }]
  | .mubuf | .mtbuf | .mimg | .global | .scratch => vectorMemoryOperations generation instr
  | .sopp =>
      if instr.opcode = .sSendmsg ∨ instr.opcode = .sSendmsghalt then [{ event := .sendmsg }]
      else []
  | .sop1 =>
      if instr.opcode = .sSendmsgRtnB32 ∨ instr.opcode = .sSendmsgRtnB64 then
        [{ event := .sendmsg, writes }]
      else []
  | _ => []

/-- Whether an instruction sets asynchronous operations in motion. -/
def isAsynchronous (generation : Generation) (instr : Instr) : Bool :=
  !(operationsOf generation instr).isEmpty

/-- An operation on all the counters of its event. -/
def Operation.tokens (generation : Generation) (operation : Operation) : Flight :=
  (generation.countersOf operation.event).toList.map fun counter => { operation, counter }

/-- What issuing an instruction adds to the flight. -/
def launch (generation : Generation) (instr : Instr) : Flight :=
  (operationsOf generation instr).flatMap (Operation.tokens generation)

/-- The number of operations that are outstanding on a counter. -/
def outstanding (flight : Flight) (counter : Counter) : Nat :=
  flight.countP fun token => token.counter = counter

/-- Whether no counter is above its threshold. -/
def Met (wait : Requirement) (flight : Flight) : Prop :=
  ∀ counter bound, wait.get counter = some bound → outstanding flight counter ≤ bound

/-- What an instruction blocks on by itself: a wait on its thresholds, and interpolation on the
exports it waits for. -/
def blocksOn (generation : Generation) (instr : Instr) : Requirement :=
  match instr.payload with
  | .interp waitExp => .set ∅ .exp (some waitExp)
  | _ => (instr.wait? generation).getD ∅

/-- Whether an instruction is neither a wait nor a delay. -/
def isOrdinary (generation : Generation) (instr : Instr) : Bool :=
  (instr.wait? generation).isNone && instr.opcode != .sDelayAlu

/-- Whether two operations leave a counter in the order of issue, if their event is ordered. -/
def Token.sharesQueue (token other : Token) : Bool :=
  token.counter = other.counter ∧ token.operation.event = other.operation.event

/-- Whether the operations of the event leave a counter in any order. -/
def Token.isUnordered (generation : Generation) (token : Token) : Bool :=
  generation.isUnordered (.single token.operation.event)

/-- One operation leaves a counter. -/
inductive Retires (generation : Generation) : Flight → Flight → Prop where
  | leave (older : Flight) (token : Token) (younger : Flight) :
      token.isUnordered generation = true ∨ (∀ other ∈ older, other.sharesQueue token = false) →
        Retires generation (older ++ token :: younger) (older ++ younger)

/-- Any number of operations leave their counters. -/
abbrev Drains (generation : Generation) : Flight → Flight → Prop :=
  Relation.ReflTransGen (Retires generation)

/-- A run of the machine over straight-line code, in which operations leave at any time. -/
inductive Runs (generation : Generation) : Flight → List Instr → Flight → Prop where
  | done (flight : Flight) : Runs generation flight [] flight
  | retire {flight next final : Flight} {code : List Instr} :
      Retires generation flight next → Runs generation next code final →
        Runs generation flight code final
  | issue {flight final : Flight} {instr : Instr} {code : List Instr} :
      Met (blocksOn generation instr) flight →
        Runs generation (flight ++ launch generation instr) code final →
          Runs generation flight (instr :: code) final

/-- What an earlier shader part has left in flight: an access to local memory, and the loads of
arguments. -/
def entryFlight (generation : Generation) (program : Program) : Flight :=
  let locals : List Operation :=
    if program.pendingLocalAccess then [{ event := .lds, sync := .ofStorage .shared }] else []
  let arguments : List Operation := program.pendingArguments.map fun definition =>
    { event := .vmem, writes := resolved definition.slots }
  (locals ++ arguments).flatMap (Operation.tokens generation)

section Meeting

/-- Whether a requirement is met can be seen counter by counter. -/
theorem met_iff {wait : Requirement} {flight : Flight} :
    Met wait flight ↔
      ∀ counter ∈ Counter.all, ∀ bound ∈ wait.get counter, outstanding flight counter ≤ bound := by
  constructor
  · intro met counter _ bound asked
    exact met counter bound asked
  · intro met counter bound asked
    exact met counter counter.mem_all bound asked

instance (wait : Requirement) (flight : Flight) : Decidable (Met wait flight) :=
  decidable_of_iff _ met_iff.symm

/-- Whether the first requirement asks for at least what the second one asks for. -/
def Entails (strict loose : Requirement) : Prop :=
  ∀ counter bound, loose.get counter = some bound →
    ∃ tighter, strict.get counter = some tighter ∧ tighter ≤ bound

theorem Entails.refl (wait : Requirement) : Entails wait wait :=
  fun _ bound asked => ⟨bound, asked, Nat.le_refl bound⟩

/-- What is asked for by a requirement is asked for by any stricter one. -/
theorem Entails.trans {first second third : Requirement} (left : Entails first second)
    (right : Entails second third) : Entails first third := by
  intro counter bound asked
  obtain ⟨middle, given, below⟩ := right counter bound asked
  obtain ⟨tighter, found, least⟩ := left counter middle given
  exact ⟨tighter, found, Nat.le_trans least below⟩

/-- Whoever meets a strict requirement meets a loose one. -/
theorem Entails.met {strict loose : Requirement} (entails : Entails strict loose)
    {flight : Flight} (met : Met strict flight) : Met loose flight := by
  intro counter bound asked
  obtain ⟨tighter, found, below⟩ := entails counter bound asked
  exact Nat.le_trans (met counter tighter found) below

/-- A combined requirement asks for what its first part asks for. -/
theorem entails_combine_left (left right : Requirement) : Entails (left.combine right) left := by
  intro counter bound asked
  rw [Requirement.get_combine, asked]
  cases right.get counter with
  | none => exact ⟨bound, rfl, Nat.le_refl bound⟩
  | some other => exact ⟨min bound other, rfl, Nat.min_le_left bound other⟩

/-- A combined requirement asks for what its second part asks for. -/
theorem entails_combine_right (left right : Requirement) :
    Entails (left.combine right) right := by
  intro counter bound asked
  rw [Requirement.get_combine, asked]
  cases left.get counter with
  | none => exact ⟨bound, rfl, Nat.le_refl bound⟩
  | some other => exact ⟨min other bound, rfl, Nat.min_le_right other bound⟩

/-- Draining further counters asks for more. -/
theorem entails_drain (wait : Requirement) (chosen : Counter → Bool) :
    Entails (wait.drain chosen) wait := by
  intro counter bound asked
  rw [Requirement.get_drain]
  split
  · exact ⟨0, rfl, Nat.zero_le bound⟩
  · exact ⟨bound, asked, Nat.le_refl bound⟩

/-- Draining one more counter asks for more. -/
theorem entails_set_zero (wait : Requirement) (counter : Counter) :
    Entails (wait.set counter (some 0)) wait := by
  intro other bound asked
  rw [Requirement.get_set]
  split
  · exact ⟨0, rfl, Nat.zero_le bound⟩
  · exact ⟨bound, asked, Nat.le_refl bound⟩

/-- A counter with something outstanding has not drained. -/
theorem Met.get_ne_zero {wait : Requirement} {flight : Flight} (met : Met wait flight)
    {token : Token} (member : token ∈ flight) : wait.get token.counter ≠ some 0 := by
  intro drained
  have idle := List.countP_eq_zero.mp (Nat.le_zero.mp (met token.counter 0 drained))
  exact idle token member (decide_eq_true rfl)

/-- A requirement is met once its bounds on the counters in use are. -/
theorem met_of_outstanding_pos {wait : Requirement} {flight : Flight}
    (met : ∀ counter bound, wait.get counter = some bound → 0 < outstanding flight counter →
      outstanding flight counter ≤ bound) : Met wait flight := by
  intro counter bound asked
  rcases Nat.eq_zero_or_pos (outstanding flight counter) with idle | busy
  · rw [idle]
    exact Nat.zero_le bound
  · exact met counter bound asked busy

end Meeting

section Leaving

variable {generation : Generation}

/-- No counter grows when an operation leaves. -/
theorem outstanding_le_of_retires {flight next : Flight} (retires : Retires generation flight next)
    (counter : Counter) : outstanding next counter ≤ outstanding flight counter := by
  cases retires with
  | leave older token younger _ =>
      simp only [outstanding, List.countP_append, List.countP_cons]
      omega

/-- What is in flight when an operation has left was in flight before. -/
theorem mem_of_retires {flight next : Flight} (retires : Retires generation flight next)
    {token : Token} (member : token ∈ next) : token ∈ flight := by
  cases retires with
  | leave older left younger _ =>
      rw [List.mem_append] at member ⊢
      exact member.imp_right (List.mem_cons_of_mem left)

/-- Thresholds that are met stay met while operations leave. -/
theorem Met.drains {wait : Requirement} {flight next : Flight} (met : Met wait flight)
    (drains : Drains generation flight next) : Met wait next := by
  induction drains with
  | refl => exact met
  | tail _ retires ih =>
      intro counter bound asked
      exact Nat.le_trans (outstanding_le_of_retires retires counter) (ih counter bound asked)

/-- What is in flight when operations have left was in flight before. -/
theorem mem_of_drains {flight next : Flight} (drains : Drains generation flight next)
    {token : Token} (member : token ∈ next) : token ∈ flight := by
  induction drains with
  | refl => exact member
  | tail _ retires ih => exact ih (mem_of_retires retires member)

/-- A run of one piece of code after the other goes through a flight between them. -/
theorem Runs.split {flight final : Flight} {first second : List Instr}
    (runs : Runs generation flight (first ++ second) final) :
    ∃ middle, Runs generation flight first middle ∧ Runs generation middle second final := by
  generalize whole : first ++ second = code at runs
  induction runs generalizing first with
  | done flight =>
      obtain ⟨rfl, rfl⟩ := List.append_eq_nil_iff.mp whole
      exact ⟨flight, .done flight, .done flight⟩
  | retire retires _ ih =>
      obtain ⟨middle, before, after⟩ := ih whole
      exact ⟨middle, .retire retires before, after⟩
  | @issue flight final instr code met rest ih =>
      rcases List.append_eq_cons_iff.mp whole with ⟨rfl, rfl⟩ | ⟨others, rfl, tail⟩
      · exact ⟨flight, .done flight, .issue met rest⟩
      · obtain ⟨middle, before, after⟩ := ih tail.symm
        exact ⟨middle, .issue met before, after⟩

/-- A run without instructions only lets operations leave. -/
theorem Runs.drains {flight final : Flight} (runs : Runs generation flight [] final) :
    Drains generation flight final := by
  generalize nothing : ([] : List Instr) = code at runs
  induction runs with
  | done flight => exact .refl
  | retire retires _ ih => exact .head retires (ih nothing)
  | issue _ _ _ => cases nothing

/-- The first instruction of a run is issued once it no longer blocks. -/
theorem Runs.first {flight final : Flight} {instr : Instr} {code : List Instr}
    (runs : Runs generation flight (instr :: code) final) :
    ∃ ready, Drains generation flight ready ∧ Met (blocksOn generation instr) ready ∧
      Runs generation (ready ++ launch generation instr) code final := by
  generalize whole : instr :: code = all at runs
  induction runs with
  | done flight => cases whole
  | retire retires _ ih =>
      obtain ⟨ready, drains, met, rest⟩ := ih whole
      exact ⟨ready, .head retires drains, met, rest⟩
  | @issue flight _ _ _ met rest _ =>
      cases whole
      exact ⟨flight, .refl, met, rest⟩

/-- Code that launches nothing only lets operations leave, and everything it blocks on is met at
its end. -/
theorem Runs.drains_of_idle {flight final : Flight} {code : List Instr}
    (runs : Runs generation flight code final)
    (idle : ∀ instr ∈ code, launch generation instr = []) :
    Drains generation flight final ∧ ∀ instr ∈ code, Met (blocksOn generation instr) final := by
  induction runs with
  | done flight => exact ⟨.refl, fun _ member => absurd member List.not_mem_nil⟩
  | retire retires _ ih =>
      obtain ⟨drains, met⟩ := ih idle
      exact ⟨.head retires drains, met⟩
  | @issue flight final instr code blocked rest ih =>
      rw [idle instr List.mem_cons_self, List.append_nil] at ih
      obtain ⟨drains, met⟩ := ih fun other member => idle other (List.mem_cons_of_mem _ member)
      refine ⟨drains, ?_⟩
      intro other member
      rcases List.mem_cons.mp member with rfl | later
      · exact blocked.drains drains
      · exact met other later

end Leaving

end WaveHazard.Hazard
