import WaveHazard.Proofs.RepeatedDemand
import WaveHazard.Proofs.VisitLimit

/-! # A loop with many latches

The header of a loop waits for all loads, and every way through the loop loads a register of its
own. What one latch leaves in flight is new to the header, so the header is visited again behind
every latch: once more than there are latches. The analysis ends, but a limit on visits that is as
large as the number of latches is exceeded.
-/

namespace WaveHazard

open Machine Wait Hazard Index Outcome

namespace LatchFan

/-- The header waits for all loads. -/
def header (count : Nat) : Block where
  kind := .flag 0
  instrs := [.immediate .sWaitcnt 0]
  linearPreds := List.range' 1 count
  linearSuccs := List.range' 1 count
  logicalPreds := List.range' 1 count
  logicalSuccs := List.range' 1 count

/-- A load of one vector register. -/
def load (register : Nat) : Instr where
  opcode := .bufferLoadDword
  operands := [.reg (.scalar 0) (.scalar 4)]
  definitions := [⟨⟨register⟩, .vector 1⟩]

/-- The latch at a position loads a register that no other latch loads. -/
def latch (position : Nat) : Block where
  kind := .flag 0
  instrs := [load (255 + position)]
  linearPreds := [0]
  linearSuccs := [0]
  logicalPreds := [0]
  logicalSuccs := [0]

/-- The block at a position. -/
def block (count position : Nat) : Block := if position = 0 then header count else latch position

/-- The header and its latches. -/
def program (count : Nat) : Program where
  blocks := Array.ofFn fun position : Fin (count + 1) => block count position

/-- The target has no arithmetic hazards. -/
def setting : Setting := { target := .ofGeneration .gfx9 }

/-- What is pending for a register that a latch loads. -/
def loading : Entry := .ofEvent .gfx9 .vmem true true .plain 0

/-- The state in which some registers are loaded. -/
def holding (registers : SlotMap slotCount Entry) : State where
  inFlight := .single .vm
  registers

/-- A state in which only loads are in flight is known by its registers. -/
theorem eq_holding {state : State} (inFlight : state.inFlight = .single .vm)
    (flatLgkm : state.flatLgkm = false) (flatVm : state.flatVm = false)
    (scalarStore : state.scalarStore = false) (fences : state.fences = (∅ : State).fences) :
    state = holding state.registers :=
  State.ext inFlight flatLgkm flatVm scalarStore fences rfl

/-- Nothing is in flight but loads of registers that have been taken. -/
structure Loading (taken : Slot → Prop) (state : State) : Prop where
  only : state = ∅ ∨ state = holding state.registers
  registers : ∀ slot entry, state.registers.get? slot = some entry → entry = loading ∧ taken slot

namespace Loading

variable {taken more : Slot → Prop} {state other : State}

theorem empty (taken : Slot → Prop) : Loading taken ∅ where
  only := .inl rfl
  registers slot entry found := by
    cases (SlotMap.get?_empty slot).symm.trans found

/-- More registers may count as taken. -/
theorem mono (pending : Loading taken state) (larger : ∀ slot, taken slot → more slot) :
    Loading more state where
  only := pending.only
  registers slot entry found :=
    ⟨(pending.registers slot entry found).1, larger slot (pending.registers slot entry found).2⟩

/-- Where control flow meets, the loads of both states are in flight. -/
theorem join (pending : Loading taken state) (also : Loading taken other) (logical : Bool) :
    Loading taken (state.join other logical) where
  only := by
    have fences : Vector.zipWith Fence.join (∅ : State).fences (∅ : State).fences =
        (∅ : State).fences := by decide +kernel
    have left : (∅ ||| Counters.single .vm : Counters) = .single .vm := by decide
    have right : (Counters.single .vm ||| ∅ : Counters) = .single .vm := by decide
    rcases pending.only with rfl | same <;> rcases also.only with rfl | again
    · exact .inl (State.absorbs_self ∅ logical)
    · rw [again]
      exact .inr (eq_holding left rfl rfl rfl fences)
    · rw [same]
      exact .inr (eq_holding right rfl rfl rfl fences)
    · rw [same, again]
      exact .inr (eq_holding (FlagSet.or_self _) rfl rfl rfl fences)
  registers slot entry found := by
    rw [State.get?_registers_join] at found
    unfold State.joinSlot at found
    cases theirs : other.registers.get? slot with
    | none =>
        rw [theirs] at found
        exact pending.registers slot entry found
    | some new =>
        obtain ⟨rfl, taken⟩ := also.registers slot new theirs
        rw [theirs] at found
        dsimp only at found
        split at found
        · cases mine : state.registers.get? slot with
          | none =>
              rw [mine] at found
              cases found
              exact ⟨rfl, taken⟩
          | some held =>
              obtain ⟨rfl, _⟩ := pending.registers slot held mine
              rw [mine] at found
              cases found
              exact ⟨Entry.join_self _, taken⟩
        · exact pending.registers slot entry found

end Loading

section Header

/-- What the header waits for while loads are in flight. -/
def queued : Queue := { wait := { vm := some 0 } }

/-- A wait for all loads leaves nothing in flight. -/
theorem pass_holding {registers : SlotMap slotCount Entry}
    (cleared : registers.retain (fun _ => State.clearEntry setting queued) = ∅) :
    (holding registers).pass setting queued = ∅ := by
  unfold State.pass
  extract_lets lowered aged
  have same : aged = lowered := if_neg (by decide)
  rw [same]
  apply State.ext
  · change List.foldl _ (Counters.single .vm) _ = _
    decide +kernel
  · rfl
  · rfl
  · rfl
  · change Vector.map _ (∅ : State).fences = _
    decide +kernel
  · exact cleared

/-- The header leaves nothing in flight. -/
theorem transfer_header (count : Nat) {taken : Slot → Prop} {state : State}
    (pending : Loading taken state) :
    ∃ schedule, (header count).transfer setting state = .ok (∅, schedule) := by
  rcases pending.only with rfl | same
  · exact ⟨_, rfl⟩
  have cleared : state.registers.retain (fun _ => State.clearEntry setting queued) = ∅ := by
    apply SlotMap.ext_get?
    intro slot
    rw [SlotMap.get?_retain, SlotMap.get?_empty]
    cases found : state.registers.get? slot with
    | none => rfl
    | some entry =>
        obtain ⟨rfl, _⟩ := pending.registers slot entry found
        rfl
  let wait : Instr := .immediate .sWaitcnt 0
  generalize state.registers = registers at same cleared
  subst same
  have absorbed : absorb setting (holding registers) ∅ wait = queued := by
    change absorb setting (holding ∅) ∅ wait = queued
    decide +kernel
  have needed : (holding registers).needs setting wait ⟨[], []⟩ wait.sync ∅ = ∅ := by
    change (holding ∅).needs setting wait ⟨[], []⟩ wait.sync ∅ = ∅
    decide +kernel
  have required : (holding registers).require setting queued wait ⟨[], []⟩ wait.sync =
      ({ (holding registers).pass setting queued with
          flatVm := false, flatLgkm := false, scalarStore := false }, queued) := by
    have delay : queued.delay = ∅ := rfl
    unfold State.require
    rw [delay, needed]
    rfl
  rw [pass_holding cleared] at required
  have ran : transferFrom setting 0 (holding registers) ∅ [wait] = .ok (∅, queued, []) := by
    unfold transferFrom
    rw [absorbed]
    refine bind_eq_ok.mpr ⟨(∅, queued), ?_, rfl⟩
    exact bind_eq_ok.mpr ⟨⟨[], []⟩, rfl, congrArg Except.ok required⟩
  exact ⟨_, bind_eq_ok.mpr ⟨(∅, queued, []), ran, rfl⟩⟩

end Header

section Latch

variable {register : Nat} (inside : register < slotCount)

include inside

/-- A register of one dword has one slot. -/
theorem sequenceSlots_register :
    sequenceSlots (slotsFrom ⟨register⟩ 1) = .ok [⟨register, inside⟩] := by
  have there : (⟨register⟩ : Register).advance 0 = .ok ⟨register, inside⟩ :=
    Register.advance_of_lt inside
  change sequenceSlots [(⟨register⟩ : Register).advance 0] = _
  rw [there]
  rfl

/-- A load reads its descriptor and writes its register. -/
theorem footprint_load :
    (load register).footprint = .ok ⟨[0, 1, 2, 3], [⟨register, inside⟩]⟩ := by
  have writes : sequenceSlots (load register).writes = .ok [⟨register, inside⟩] :=
    sequenceSlots_register inside
  exact bind_eq_ok.mpr ⟨_, rfl, bind_eq_ok.mpr ⟨_, writes, rfl⟩⟩

/-- A load is counted, and its register waits for it. -/
theorem issueAll_load (state : State) :
    issueAll setting state (load register) =
      .ok ((state.count .gfx9 .vmem {}).track [⟨register, inside⟩] loading) := by
  have defined : Effect.defineFirst .gfx9 (load register) .vmem .plain =
      .ok [.track [⟨register, inside⟩] loading] :=
    bind_eq_ok.mpr ⟨_, bind_eq_ok.mpr ⟨_, sequenceSlots_register inside, rfl⟩, rfl⟩
  have effects : Effect.ofInstr .gfx9 (load register) =
      .ok [.count .vmem {}, .track [⟨register, inside⟩] loading] :=
    bind_eq_ok.mpr ⟨_, defined, rfl⟩
  refine bind_eq_ok.mpr ⟨state, rfl, ?_⟩
  change (Effect.ofInstr .gfx9 (load register)).map _ = _
  rw [effects]
  rfl

end Latch

/-- The state behind a load of one register. -/
def loaded (slot : Slot) : State := ((∅ : State).count .gfx9 .vmem {}).track [slot] loading

/-- Behind the load of one register no other one has an entry. -/
theorem get?_loaded (slot other : Slot) :
    (loaded slot).registers.get? other = if other = slot then some loading else none := by
  have blank : ((∅ : State).count .gfx9 .vmem {}).registers.get? other = none := by
    rw [State.get?_count, if_neg (by decide +kernel)]
    have unset : (∅ : State).registers.get? other = none := SlotMap.get?_empty other
    rw [unset]
    rfl
  rw [loaded, State.get?_track, blank]
  simp [State.joinProducer]

/-- Behind the load of one register only that register is taken. -/
theorem loading_loaded (slot : Slot) : Loading (· = slot) (loaded slot) where
  only := by
    refine .inr (eq_holding ?_ rfl rfl rfl ?_)
    · change ((∅ : State).count .gfx9 .vmem {}).inFlight = _
      decide +kernel
    · change ((∅ : State).count .gfx9 .vmem {}).fences = _
      decide +kernel
  registers other entry found := by
    rw [get?_loaded] at found
    split at found
    · cases found
      exact ⟨rfl, ‹_›⟩
    · cases found

/-- A latch that is entered with nothing in flight leaves the load of its register. -/
theorem transfer_latch {position : Nat} (inside : 255 + position < slotCount) :
    ∃ schedule, (latch position).transfer setting ∅ =
      .ok (loaded ⟨255 + position, inside⟩, schedule) := by
  have ready : State.Ready setting ∅ (load (255 + position))
      ⟨[0, 1, 2, 3], [⟨255 + position, inside⟩]⟩ := by
    intro counter bound busy
    cases counter <;> cases busy
  have demanded := ready.demand (fun slot _ entry found => by
    cases (SlotMap.get?_empty slot).symm.trans found) (footprint_load inside)
  let left := loaded ⟨255 + position, inside⟩
  let due : Queue := { wait := left.afterIssue setting (load (255 + position)) }
  have ran : transferFrom setting 0 ∅ ∅ [load (255 + position)] =
      .ok (left, due, [{ queue := ∅, instr := load (255 + position) }]) := by
    unfold transferFrom
    refine bind_eq_ok.mpr ⟨(∅, ∅), demanded, bind_eq_ok.mpr ⟨(∅, ∅, 0), rfl, ?_⟩⟩
    refine bind_eq_ok.mpr ⟨(∅, ∅, 1), rfl, ?_⟩
    exact bind_eq_ok.mpr ⟨left, issueAll_load inside ∅, rfl⟩
  exact ⟨_, bind_eq_ok.mpr ⟨_, ran, rfl⟩⟩

section Blocks

variable {count position : Nat}

theorem size_program (count : Nat) : (program count).size = count + 1 := Array.size_ofFn

/-- The header comes first. -/
theorem blocks_header (inside : 0 < (program count).size) :
    (program count).blocks[0] = header count :=
  Array.getElem_ofFn ..

/-- All blocks behind the header are latches. -/
theorem blocks_latch (inside : position < (program count).size) (behind : position ≠ 0) :
    (program count).blocks[position] = latch position :=
  (Array.getElem_ofFn ..).trans (if_neg behind)

/-- No block is exempt from waits. -/
theorem isExempt_blocks (inside : position < (program count).size) :
    (program count).blocks[position].isExempt = false := by
  have plain : FlagSet.intersects (.flag 0 : BlockKind) BlockKind.discardEarlyExit = false := by
    decide
  by_cases first : position = 0
  · subst first
    rw [blocks_header inside]
    exact plain
  · rw [blocks_latch inside first]
    exact plain

/-- The header and every latch know of each other. -/
theorem symmetric_program (count : Nat) : WellFormed.Symmetric (program count) := by
  have edges {position other : Nat} {graph : Graph} (inside : position < (program count).size)
      (edge : other ∈ List.range' 1 count ∧ position = 0 ∨ other = 0 ∧ position ≠ 0) :
      ∃ there : other < (program count).size,
        position ∈ WellFormed.preds (program count).blocks[other] graph ∧
          position ∈ WellFormed.succs (program count).blocks[other] graph := by
    have size := size_program count
    rcases edge with ⟨member, rfl⟩ | ⟨rfl, behind⟩
    · have bounds := List.mem_range'_1.mp member
      refine ⟨by omega, ?_⟩
      rw [blocks_latch _ (by omega)]
      cases graph <;> exact ⟨List.mem_cons_self, List.mem_cons_self⟩
    · have listed : position ∈ List.range' 1 count := List.mem_range'_1.mpr (by omega)
      refine ⟨by omega, ?_⟩
      rw [blocks_header]
      cases graph <;> exact ⟨listed, listed⟩
  have named {position other : Nat} {graph : Graph} (inside : position < (program count).size)
      (edge : other ∈ WellFormed.succs (program count).blocks[position] graph ∨
        other ∈ WellFormed.preds (program count).blocks[position] graph) :
      other ∈ List.range' 1 count ∧ position = 0 ∨ other = 0 ∧ position ≠ 0 := by
    by_cases first : position = 0
    · subst first
      rw [blocks_header inside] at edge
      cases graph <;> exact .inl ⟨edge.elim id id, rfl⟩
    · rw [blocks_latch inside first] at edge
      cases graph <;> exact .inr ⟨edge.elim List.mem_singleton.mp List.mem_singleton.mp, first⟩
  constructor
  · intro position succ graph inside member
    obtain ⟨there, known, _⟩ := edges inside (named inside (.inl member))
    exact ⟨there, known⟩
  · intro position pred graph inside member
    obtain ⟨there, _, known⟩ := edges inside (named inside (.inr member))
    exact ⟨there, known⟩

/-- The registers of all latches lie inside of the register file. -/
theorem checkBlock_program (few : count ≤ 256) (inside : position < (program count).size) :
    WellFormed.checkBlock position (program count).blocks[position] = .ok () := by
  have size := size_program count
  by_cases first : position = 0
  · subst first
    rw [blocks_header inside]
    rfl
  · rw [blocks_latch inside first]
    refine forM_eq_ok.mpr fun instr member => ?_
    cases List.mem_singleton.mp member
    have file : ¬slotCount < 255 + position + 1 := by
      have : slotCount = 512 := rfl
      omega
    have bank : Register.isVector ⟨255 + position⟩ = true := by
      refine decide_eq_true ?_
      change 256 ≤ 255 + position
      omega
    have defined : WellFormed.checkRegister (load (255 + position)) ⟨255 + position⟩ (.vector 1) =
        .ok () := by
      refine (if_neg file).trans (if_neg ?_)
      rw [bank]
      decide
    have checked : WellFormed.checkInstr (load (255 + position)) = .ok () := by
      refine bind_eq_ok.mpr ⟨(), rfl, bind_eq_ok.mpr ⟨(), ?_, rfl⟩⟩
      exact bind_eq_ok.mpr ⟨(), defined, rfl⟩
    rw [checked]

end Blocks

section Rounds

variable {count : Nat} {order : List Nat}

/-- The slots that are loaded by the latches at the places up to a last one. -/
def taken (order : List Nat) (last : Nat) (slot : Slot) : Prop :=
  ∃ place position, 0 < place ∧ place ≤ last ∧ order[place]? = some position ∧
    slot.val = 255 + position

theorem taken.mono {last more : Nat} (within : last ≤ more) {slot : Slot}
    (known : taken order last slot) : taken order more slot := by
  obtain ⟨place, position, positive, bound, found⟩ := known
  exact ⟨place, position, positive, bound.trans within, found⟩

/-- The latches at the places up to a last one have been visited. The others have not. -/
structure Visited (order : List Nat) (last : Nat) (progress : Progress (program count).size) :
    Prop where
  /-- Every latch has been visited once at most, and was entered with nothing in flight. -/
  once : ∀ position (inside : position < (program count).size), position ≠ 0 →
    progress.visits[position] ≤ 1 ∧ progress.entry[position] = ∅
  fresh : ∀ place position (inside : position < (program count).size), last < place →
    order[place]? = some position → progress.visits[position] = 0
  exits : ∀ position (inside : position < (program count).size),
    Loading (taken order last) progress.exit[position]
  idle : ∀ inside : 0 < (program count).size, progress.exit[0] = ∅

/-- The header is to be visited next, and the last latch has left something new for it. -/
structure HeaderNext (order : List Nat) (last : Nat) (progress : Progress (program count).size) :
    Prop extends Visited order last progress where
  pending : progress.pending = 0 :: List.range' (last + 1) (count - last)
  visits : ∀ inside : 0 < (program count).size, progress.visits[0] = last
  entered : ∀ inside : 0 < (program count).size,
    Loading (taken order (last - 1)) progress.entry[0]
  new : 0 < last → ∀ position (inside : position < (program count).size),
    order[last]? = some position → ∀ slot : Slot, slot.val = 255 + position →
      progress.exit[position].registers.get? slot = some loading

/-- The header has been visited behind the last latch. -/
structure LatchNext (order : List Nat) (last : Nat) (progress : Progress (program count).size) :
    Prop extends Visited order last progress where
  pending : progress.pending = List.range' (last + 1) (count - last)
  visits : ∀ inside : 0 < (program count).size, progress.visits[0] = last + 1
  entered : ∀ inside : 0 < (program count).size, Loading (taken order last) progress.entry[0]

variable {last : Nat} {progress : Progress (program count).size}

section Ordered

variable (ordered : (program count).reversePostorder = .ok order)

include ordered

/-- The slots of latches further back have not been taken. -/
theorem not_taken {place position : Nat} (named : order[place]? = some position)
    (before : last < place) {slot : Slot} (there : slot.val = 255 + position) :
    ¬taken order last slot := by
  rintro ⟨earlier, other, _, bound, found, same⟩
  have here := Program.idxOf_of_getElem?_reversePostorder ordered named
  have again := Program.idxOf_of_getElem?_reversePostorder ordered found
  obtain rfl : other = position := by omega
  omega

/-- Every place but the first one names a latch. -/
theorem ne_zero_of_named {place position : Nat} (named : order[place]? = some position)
    (behind : 0 < place) : position ≠ 0 := by
  rintro rfl
  have nonempty : 0 < (program count).size := by
    rw [size_program]
    exact Nat.succ_pos count
  have here := Program.idxOf_of_getElem?_reversePostorder ordered named
  have first := Program.idxOf_of_getElem?_reversePostorder ordered
    (Program.getElem?_zero_reversePostorder nonempty ordered)
  omega

/-- The header is due: it has not been visited, or what the last latch left is new to it. -/
theorem HeaderNext.due (next : HeaderNext order last progress) (few : count ≤ 256)
    (within : last ≤ count) (inside : 0 < (program count).size) :
    ∃ state grew,
      progress.arriving (program count).blocks[0] progress.entry[0] = .ok (state, grew) ∧
        (progress.visits[0] = 0 ∨ grew = true) ∧ Loading (taken order last) state := by
  obtain ⟨state, grew, arriving⟩ := progress.exists_arriving
    (fun graph => ((symmetric_program count).edgesInside 0 inside graph).1) progress.entry[0]
  refine ⟨state, grew, arriving, ?_, ?_⟩
  · by_cases start : last = 0
    · exact .inl ((next.visits inside).trans start)
    right
    by_contra quiet
    obtain ⟨_, absorbed, reported⟩ := Progress.absorbs_of_arriving arriving
    rw [reported (eq_false_of_ne_true quiet)] at absorbed
    have size := size_program count
    obtain ⟨position, there, named⟩ :=
      Program.exists_getElem?_reversePostorder ordered (by omega : last < (program count).size)
    have behind := ne_zero_of_named ordered named (by omega)
    have edge : position ∈ WellFormed.preds (program count).blocks[0] .logical := by
      rw [blocks_header inside]
      exact List.mem_range'_1.mpr (by omega)
    let slot : Slot := ⟨255 + position, by change _ < 512; omega⟩
    -- The header knows nothing of the register that the last latch loads.
    have unknown : progress.entry[0].registers.get? slot = none := by
      cases found : progress.entry[0].registers.get? slot with
      | none => rfl
      | some entry =>
          have known := ((next.entered inside).registers slot entry found).2
          exact absurd known (not_taken ordered named (by omega) rfl)
    have same := congrArg (fun state => state.registers.get? slot)
      (absorbed .logical position there edge)
    rw [State.get?_registers_join, next.new (by omega) position there named slot rfl,
      unknown] at same
    cases same
  · refine Progress.arriving_keeps (fun pending also => pending.join also _) next.exits ?_ arriving
    exact (next.entered inside).mono fun _ => taken.mono (Nat.sub_le last 1)

/-- On the first visit of the header all latches wait already. -/
theorem enqueue_latches (inside : 0 < (program count).size) :
    Progress.enqueue (program count).size order
      ((header count).linearSuccs ++ (header count).logicalSuccs) (List.range' 1 count) =
        .ok (List.range' 1 count) := by
  refine Progress.enqueue_of_mem List.pairwise_lt_range' fun succ member => ?_
  have latch : succ ∈ List.range' 1 count := (List.mem_append.mp member).elim id id
  have bounds := List.mem_range'_1.mp latch
  have size := size_program count
  have there : succ < (program count).size := by omega
  have below := Program.idxOf_reversePostorder_lt ordered there
  have named := Program.getElem?_idxOf_reversePostorder ordered there
  have behind : order.idxOf succ ≠ 0 := by
    intro again
    rw [again, Program.getElem?_zero_reversePostorder inside ordered] at named
    cases named
    omega
  exact ⟨there, List.mem_range'_1.mpr (by omega)⟩

/-- The header is visited. It leaves nothing in flight, so no latch has to be visited again. -/
theorem HeaderNext.round (next : HeaderNext order last progress) (few : count ≤ 256)
    (within : last ≤ count) :
    ∃ after, Analysis.Round setting (program count) order progress after ∧
      LatchNext order last after := by
  have size := size_program count
  have inside : 0 < (program count).size := by omega
  have first := Program.getElem?_zero_reversePostorder inside ordered
  obtain ⟨state, grew, arriving, due, pending⟩ := next.due ordered few within inside
  obtain ⟨schedule, transfer⟩ := transfer_header count pending
  rw [← blocks_header inside] at transfer
  have enqueued : Progress.enqueue (program count).size order
      (if progress.visits[0] = 0 ∨ (∅ : State) ≠ progress.exit[0] then
        (program count).blocks[0].linearSuccs ++ (program count).blocks[0].logicalSuccs else [])
      (List.range' (last + 1) (count - last)) = .ok (List.range' (last + 1) (count - last)) := by
    rw [next.idle inside, next.visits inside, blocks_header inside]
    split
    · rename_i start
      obtain rfl : last = 0 := start.resolve_right fun other => other rfl
      exact enqueue_latches ordered inside
    · rfl
  refine ⟨_, .visit next.pending first inside (isExempt_blocks inside) arriving due transfer
    enqueued, ⟨?_, ?_, ?_, ?_⟩, rfl, ?_, ?_⟩
  · intro position there behind
    simp only [Vector.getElem_set_ne _ _ behind.symm]
    exact next.once position there behind
  · intro place position there later named
    have behind := ne_zero_of_named ordered named (by omega)
    simp only [Vector.getElem_set_ne _ _ behind.symm]
    exact next.fresh place position there later named
  · intro position there
    by_cases self : position = 0
    · subst self
      simp only [Vector.getElem_set_self]
      exact .empty _
    · simp only [Vector.getElem_set_ne _ _ (Ne.symm self)]
      exact next.exits position there
  · intro _
    simp only [Vector.getElem_set_self]
  · intro _
    simp only [Vector.getElem_set_self]
    rw [next.visits inside]
  · intro _
    simp only [Vector.getElem_set_self]
    exact pending

omit ordered in
/-- A latch that waits for its first visit is entered with nothing in flight. -/
theorem arriving_latch (inside : 0 < (program count).size) (idle : progress.exit[0] = ∅)
    (position : Nat) : progress.arriving (latch position) ∅ = .ok (∅, false) := by
  have quiet (logical : Bool) :
      Progress.joinPreds progress.exit logical [0] (∅, false) = .ok (∅, false) := by
    have same : (∅ : State).join ∅ logical = ∅ := State.absorbs_self ∅ logical
    refine bind_eq_ok.mpr ⟨(∅, false), (dif_pos inside).trans ?_, rfl⟩
    rw [idle]
    dsimp only
    rw [same, State.join_eq_left_iff.mp same]
    rfl
  exact bind_eq_ok.mpr ⟨_, quiet false, quiet true⟩

/-- The header goes in front of everything that waits. -/
theorem enqueue_header (inside : 0 < (program count).size) (position start length : Nat) :
    Progress.enqueue (program count).size order
      ((latch position).linearSuccs ++ (latch position).logicalSuccs)
      (List.range' (start + 1) length) = .ok (0 :: List.range' (start + 1) length) := by
  have first := Program.idxOf_of_getElem?_reversePostorder ordered
    (Program.getElem?_zero_reversePostorder inside ordered)
  have front : insertPlace 0 (List.range' (start + 1) length) =
      0 :: List.range' (start + 1) length := by
    cases length with
    | zero => rfl
    | succ more => exact if_pos (Nat.succ_pos _)
  refine bind_eq_ok.mpr ⟨_, (if_pos inside).trans (by rw [first, front]), ?_⟩
  exact bind_eq_ok.mpr ⟨_, (if_pos inside).trans (by rw [first]; rfl), rfl⟩

/-- The next latch is visited. It leaves the load of its register, and the header is to be visited
again. -/
theorem LatchNext.round (next : LatchNext order last progress) (few : count ≤ 256)
    (within : last < count) :
    ∃ after, Analysis.Round setting (program count) order progress after ∧
      HeaderNext order (last + 1) after := by
  have size := size_program count
  have nonempty : 0 < (program count).size := by omega
  obtain ⟨position, inside, named⟩ :=
    Program.exists_getElem?_reversePostorder ordered (by omega : last + 1 < (program count).size)
  have behind := ne_zero_of_named ordered named (Nat.succ_pos last)
  have file : 255 + position < slotCount := by
    change _ < 512
    omega
  have fresh := next.fresh _ position inside (Nat.lt_succ_self last) named
  have blank := (next.once position inside behind).2
  have pending : progress.pending =
      (last + 1) :: List.range' (last + 1 + 1) (count - (last + 1)) := by
    rw [next.pending, ← List.range'_succ]
    congr 1
    omega
  have arriving : progress.arriving (program count).blocks[position] progress.entry[position] =
      .ok (∅, false) := by
    rw [blank, blocks_latch inside behind]
    exact arriving_latch nonempty (next.idle nonempty) position
  obtain ⟨schedule, transfer⟩ := transfer_latch file
  rw [← blocks_latch inside behind] at transfer
  have enqueued : Progress.enqueue (program count).size order
      (if progress.visits[position] = 0 ∨
          loaded ⟨255 + position, file⟩ ≠ progress.exit[position] then
        (program count).blocks[position].linearSuccs ++
          (program count).blocks[position].logicalSuccs else [])
      (List.range' (last + 1 + 1) (count - (last + 1))) =
        .ok (0 :: List.range' (last + 1 + 1) (count - (last + 1))) := by
    rw [if_pos (.inl fresh), blocks_latch inside behind]
    exact enqueue_header ordered nonempty position _ _
  have other {place : Nat} (different : place ≠ last + 1) {found : Nat}
      (there : order[place]? = some found) : position ≠ found := by
    rintro rfl
    have here := Program.idxOf_of_getElem?_reversePostorder ordered named
    have again := Program.idxOf_of_getElem?_reversePostorder ordered there
    omega
  refine ⟨_, .visit pending named inside (isExempt_blocks inside) arriving (.inl fresh) transfer
    enqueued, ⟨?_, ?_, ?_, ?_⟩, rfl, ?_, ?_, ?_⟩
  · intro place there latch
    by_cases self : position = place
    · subst self
      simp [fresh]
    · simp only [Vector.getElem_set_ne _ _ self]
      exact next.once place there latch
  · intro place found there later naming
    simp only [Vector.getElem_set_ne _ _ (other (by omega) naming)]
    exact next.fresh place found there (by omega) naming
  · intro place there
    by_cases self : position = place
    · subst self
      simp only [Vector.getElem_set_self]
      refine (loading_loaded _).mono ?_
      rintro _ rfl
      exact ⟨last + 1, position, Nat.succ_pos last, le_rfl, named, rfl⟩
    · simp only [Vector.getElem_set_ne _ _ self]
      exact (next.exits place there).mono fun _ => taken.mono (Nat.le_succ last)
  · intro _
    simp only [Vector.getElem_set_ne _ _ behind]
    exact next.idle nonempty
  · intro _
    simp only [Vector.getElem_set_ne _ _ behind]
    exact next.visits nonempty
  · intro _
    simp only [Vector.getElem_set_ne _ _ behind]
    exact next.entered nonempty
  · intro _ place there again slot same
    cases named.symm.trans again
    simp only [Vector.getElem_set_self]
    rw [get?_loaded, if_pos (Fin.ext same)]

/-- The header is to be visited behind every latch. -/
theorem headerNext_of_rounds (few : count ≤ 256) (inside : 0 < (program count).size)
    (within : last ≤ count) :
    ∃ progress, Analysis.Reached setting (program count) order
      ((Vector.replicate (program count).size ∅).set 0 ∅) progress ∧
        HeaderNext order last progress := by
  induction last with
  | zero =>
      have blank (position : Nat) (there : position < (program count).size) :
          ((Vector.replicate (program count).size (∅ : State)).set 0 ∅)[position] = ∅ := by
        simp
      have nothing (position : Nat) (there : position < (program count).size) :
          (Vector.replicate (program count).size (∅ : State))[position] = ∅ :=
        Vector.getElem_replicate ..
      refine ⟨_, .refl, ⟨?_, ?_, ?_, ?_⟩, ?_, ?_, ?_, ?_⟩
      · exact fun position there _ =>
          ⟨(Vector.getElem_replicate ..).trans_le (Nat.zero_le 1), blank position there⟩
      · exact fun _ _ _ _ _ => Vector.getElem_replicate ..
      · intro position there
        change Loading _ (Vector.replicate (program count).size (∅ : State))[position]
        rw [nothing position there]
        exact .empty _
      · exact fun there => nothing 0 there
      · change List.range (program count).size = _
        rw [size_program, List.range_eq_range', List.range'_succ]
        rfl
      · exact fun _ => Vector.getElem_replicate ..
      · intro there
        change Loading _ ((Vector.replicate (program count).size (∅ : State)).set 0 ∅)[0]
        rw [blank 0 there]
        exact .empty _
      · exact fun impossible => absurd impossible (lt_irrefl 0)
  | succ last ih =>
      obtain ⟨progress, reached, next⟩ := ih (by omega)
      obtain ⟨middle, header, behind⟩ := next.round ordered few (by omega)
      obtain ⟨after, latch, again⟩ := behind.round ordered few (by omega)
      exact ⟨after, (reached.tail header).tail latch, again⟩

end Ordered

end Rounds

/-- Validation accepts the program, whatever the journal says. -/
theorem completes_validation (target : Target) {count : Nat} (few : count ≤ 256) :
    WellFormed.pass.Completes target [] (program count) (program count) :=
  WellFormed.completes_of_checks (WellFormed.checkGraphs_of_symmetric (symmetric_program count))
    fun _ => checkBlock_program few

/-- The program is well-formed as long as there is a register for every latch. -/
theorem valid_program {count : Nat} (few : count ≤ 256) : (program count).Valid := by
  obtain ⟨after, accepted, _⟩ := completes_validation (.ofGeneration .gfx9) few {}
  exact WellFormed.valid_of_run accepted

/-- An analysis that may visit every block as often as there are latches gives up on the header. -/
theorem entry_analyze {count limit : Nat} (few : count ≤ 256) (nonzero : 0 < count)
    (same : count = limit) :
    ((program count).analyze setting limit).entry = .error (.visitLimit 0 (limit + 1)) := by
  have size := size_program count
  have inside : 0 < (program count).size := by omega
  obtain ⟨order, ordered⟩ := (valid_program few).exists_reversePostorder
  obtain ⟨progress, reached, next⟩ := headerNext_of_rounds ordered few inside le_rfl
  obtain ⟨state, grew, arriving, due, _⟩ := next.due ordered few le_rfl inside
  have room (position : Nat) (there : position < (program count).size) :
      progress.visits[position] ≤ limit := by
    by_cases first : position = 0
    · subst first
      exact ((next.visits there).trans same).le
    · exact ((next.once position there first).1.trans nonzero).trans same.le
  rw [Program.analyze_of_start ordered inside rfl]
  refine (congrArg Findings.entry (Analysis.run_of_rounds reached room)).trans ?_
  exact Analysis.entry_run_of_last next.pending
    (Program.getElem?_zero_reversePostorder inside ordered) inside (isExempt_blocks inside)
    arriving due ((next.visits inside).trans same)

/-- The pipeline without options gives up on as many latches as it allows visits. -/
theorem run_insertWaitStates_latches {count : Nat} (many : count = 256) (journal : Journal) :
    ∃ after, (insertWaitStates setting.target []).run
        { program := program count, journal, data := () } =
      (.error (.faulted (.visitLimit 0 257)), after) := by
  refine run_insertWaitStates_of_fault
    (WellFormed.checkGraphs_of_symmetric (symmetric_program count)) ?_ ?_
  · exact fun _ => checkBlock_program many.le
  · exact entry_analyze many.le (by omega) many

end LatchFan

open LatchFan in
/-- Validation accepts a loop with 256 latches, and its analysis ends under every limit above the
height of the order of states. The pipeline without options gives up on it all the same. -/
theorem visit_limit_rejects_latches :
    ∃ validated : Session Unit,
      (WellFormed.pass.run (.ofGeneration .gfx9) []).run
          { program := program 256, journal := {}, data := () } = (.ok (), validated) ∧
        (program 256).pendingArguments = [] ∧
        (∀ limit, State.height < limit →
          Succeeds ((program 256).analyze { target := .ofGeneration .gfx9 } limit).entry) ∧
        ∃ after, (insertWaitStates (.ofGeneration .gfx9) []).run
            { program := program 256, journal := {}, data := () } =
          (.error (.faulted (.visitLimit 0 257)), after) := by
  have many : 256 ≤ 256 := le_rfl
  obtain ⟨validated, accepted, _⟩ := completes_validation (.ofGeneration .gfx9) many {}
  refine ⟨validated, accepted, rfl, fun limit high => ?_, run_insertWaitStates_latches rfl {}⟩
  obtain ⟨_, _, final, _, _, _, ends⟩ :=
    (valid_program many).analyze_unlimited setting fun _ member => nomatch member
  exact ⟨final.entry, congrArg Findings.entry (ends limit high)⟩

end WaveHazard
