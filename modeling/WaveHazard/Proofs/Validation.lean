import WaveHazard.Pass.InsertWaits
import WaveHazard.Pass.WellFormed
import WaveHazard.Proofs.Outcome

/-! # What validation is for

An instruction that validation accepts has its registers inside of the register file and whatever
its opcode needs. That is all the analysis asks for: the effects of such an instruction can be read
off it, and a block of such instructions can be run from every state.
-/

namespace WaveHazard

open Machine Hazard Outcome

namespace Machine

/-- All the slots lie inside of the register file. -/
def Resolve (slots : List (Except Fault Slot)) : Prop := ∀ slot ∈ slots, Succeeds slot

/-- The slots of a register resolve when the last one is in the file. -/
theorem resolve_slotsFrom {register : Register} {size : Nat}
    (inside : register.number + size ≤ slotCount) : Resolve (slotsFrom register size) := by
  intro slot member
  obtain ⟨n, listed, rfl⟩ := List.mem_map.mp member
  have below := List.mem_range.mp listed
  exact ⟨_, Register.advance_of_lt (by omega)⟩

/-- Slots that resolve one by one resolve together. -/
theorem Resolve.sequence {slots : List (Except Fault Slot)} (resolve : Resolve slots) :
    Succeeds (sequenceSlots slots) :=
  succeeds_mapM resolve

/-- The slots of a list of items resolve when those of each item do. -/
theorem resolve_flatMap {α : Type} {items : List α} {slotsOf : α → List (Except Fault Slot)}
    (each : ∀ item ∈ items, Resolve (slotsOf item)) : Resolve (items.flatMap slotsOf) := by
  intro slot member
  obtain ⟨item, listed, there⟩ := List.mem_flatMap.mp member
  exact each item listed slot there

end Machine

namespace WellFormed

/-- What validation finds out about an instruction. -/
structure Accepted (instr : Instr) : Prop where
  operands : ∀ operand ∈ instr.operands, Resolve operand.slots
  definitions : ∀ definition ∈ instr.definitions, Resolve definition.slots
  /-- An export has its payload and an operand for every channel. -/
  exports : instr.encoding = .exp → ∃ target enabledMask compressed done,
    instr.payload = .exportTo target enabledMask compressed done ∧
      exportNeeds enabledMask compressed ≤ instr.operands.length
  directLoad : instr.encoding = .ldsdir → instr.definitions.isEmpty = false
  reply : instr.opcode = .sSendmsgRtnB32 ∨ instr.opcode = .sSendmsgRtnB64 →
    instr.definitions.isEmpty = false

variable {instr : Instr}

/-- A register that passes its check lies inside of the file as a whole. -/
theorem inside_of_checkRegister {register : Register} {cls : RegisterClass}
    (checked : checkRegister instr register cls = .ok ()) :
    register.number + cls.size ≤ slotCount := by
  unfold checkRegister at checked
  split at checked
  · cases checked
  · omega

/-- An instruction that passes its check is accepted. -/
theorem accepted_of_checkInstr (checked : checkInstr instr = .ok ()) : Accepted instr := by
  obtain ⟨_, operands, checked⟩ := bind_eq_ok.mp checked
  obtain ⟨_, definitions, checked⟩ := bind_eq_ok.mp checked
  obtain ⟨_, shape, reply⟩ := bind_eq_ok.mp checked
  unfold checkShape at shape
  unfold checkReply at reply
  refine ⟨?_, ?_, ?_, ?_, ?_⟩
  · intro operand member
    have inside := forM_eq_ok.mp operands operand member
    cases operand with
    | reg register cls => exact resolve_slotsFrom (inside_of_checkRegister inside)
    | const value => exact fun _ member => nomatch member
    | undef => exact fun _ member => nomatch member
  · intro definition member
    have inside := forM_eq_ok.mp definitions definition member
    exact resolve_slotsFrom (inside_of_checkRegister inside)
  · intro encoding
    rw [encoding] at shape
    dsimp only at shape
    split at shape
    · rename_i target enabledMask compressed done payload
      split at shape
      · cases shape
      · exact ⟨target, enabledMask, compressed, done, payload, by omega⟩
    · cases shape
  · intro encoding
    rw [encoding] at shape
    dsimp only at shape
    split at shape
    · cases shape
    · exact eq_false_of_ne_true ‹_›
  · intro replies
    split at reply
    · cases reply
    · rename_i missing
      exact eq_false_of_ne_true fun empty => missing ⟨replies, empty⟩

/-- Every operand that an export reads is among those it needs. -/
theorem lt_exportNeeds {enabledMask : Nat} {compressed : Bool} {position : Nat}
    (member : position ∈ Effect.exportOperands enabledMask compressed) :
    position < exportNeeds enabledMask compressed := by
  have fold (channels : List Nat) (needed : Nat) :
      let most := channels.foldl (fun needed channel =>
        max needed (if compressed then channel / 2 + 1 else channel + 1)) needed
      needed ≤ most ∧
        ∀ channel ∈ channels, (if compressed then channel / 2 else channel) < most := by
    induction channels generalizing needed with
    | nil => exact ⟨Nat.le_refl _, fun _ member => nomatch member⟩
    | cons first rest ih =>
        obtain ⟨above, others⟩ :=
          ih (max needed (if compressed then first / 2 + 1 else first + 1))
        refine ⟨Nat.le_trans (Nat.le_max_left _ _) above, List.forall_mem_cons.mpr ⟨?_, others⟩⟩
        refine Nat.lt_of_lt_of_le ?_ (Nat.le_trans (Nat.le_max_right _ _) above)
        split <;> exact Nat.lt_succ_self _
  obtain ⟨channel, enabled, rfl⟩ := List.mem_map.mp member
  exact (fold _ 0).2 channel enabled

end WellFormed

namespace Hazard

variable {generation : Generation} {instr : Instr} {event : Event} {loads : LoadKind}

namespace Effect

/-- A register whose slots resolve can be tracked. -/
theorem succeeds_trackRegister {register : Register} {cls : RegisterClass} {onRead : Bool}
    {cycles : Int} {forceLinear : Bool} (resolve : Resolve (slotsFrom register cls.size)) :
    Succeeds (trackRegister generation register cls event onRead loads cycles forceLinear) :=
  resolve.sequence.bind fun _ _ => ⟨_, rfl⟩

/-- An operand whose slots resolve can be locked. -/
theorem succeeds_lock {operand : Operand} (resolve : Resolve operand.slots) :
    Succeeds (lock generation operand event loads) := by
  cases operand with
  | reg register cls => exact (succeeds_trackRegister resolve).bind fun _ _ => ⟨_, rfl⟩
  | const value => exact succeeds_ok _
  | undef => exact succeeds_ok _

/-- The mask of active lanes lies inside of the register file. -/
theorem resolve_execOperand : Resolve execOperand.slots := resolve_slotsFrom (by decide)

/-- The operand with the data of an accepted store can be locked. -/
theorem succeeds_storeData {operand : Operand} (accepted : WellFormed.Accepted instr)
    (stored : storeData? instr = some operand) :
    Succeeds (lock generation operand event loads) := by
  unfold storeData? at stored
  refine succeeds_lock (accepted.operands operand ?_)
  split at stored
  · exact List.mem_of_getElem? (Option.filter_eq_some_iff.mp stored).1
  · split at stored
    · exact List.mem_of_getElem? stored
    · cases stored

section Reading

variable (accepted : WellFormed.Accepted instr)

include accepted

/-- The first definition of an accepted instruction can be tracked. -/
theorem succeeds_defineFirst : Succeeds (defineFirst generation instr event loads) := by
  unfold defineFirst
  split
  · exact succeeds_ok _
  · rename_i definition rest listed
    have member : definition ∈ instr.definitions := by simp [listed]
    exact (succeeds_trackRegister (accepted.definitions definition member)).bind
      fun _ _ => ⟨_, rfl⟩

/-- The effects of an accepted export can be read off. -/
theorem succeeds_ofExport (encoding : instr.encoding = .exp) :
    Succeeds (ofExport generation instr) := by
  obtain ⟨target, enabledMask, compressed, done, payload, enough⟩ := accepted.exports encoding
  unfold ofExport
  rw [payload]
  refine Succeeds.bind (succeeds_mapM fun position listed => ?_) fun locks _ =>
    (succeeds_lock resolve_execOperand).bind fun lanes _ => ⟨_, rfl⟩
  have inside : position < instr.operands.length :=
    Nat.lt_of_lt_of_le (WellFormed.lt_exportNeeds listed) enough
  rw [List.getElem?_eq_getElem inside]
  exact succeeds_lock (accepted.operands _ (List.getElem_mem inside))

/-- The effects of an accepted access to the data shares can be read off. -/
theorem succeeds_ofDataShare : Succeeds (ofDataShare generation instr) := by
  unfold ofDataShare
  split
  · refine (succeeds_defineFirst accepted).bind fun result _ =>
      Succeeds.bind (succeeds_mapM fun operand listed => succeeds_lock ?_) fun locks _ => ⟨_, rfl⟩
    rcases List.mem_append.mp listed with given | mask
    · exact accepted.operands operand given
    · rw [List.mem_singleton.mp mask]
      exact resolve_execOperand
  · exact (succeeds_defineFirst accepted).bind fun _ _ => ⟨_, rfl⟩

/-- The effects of an accepted access to vector memory can be read off. -/
theorem succeeds_ofVectorMemory : Succeeds (ofVectorMemory generation instr) := by
  refine (succeeds_defineFirst accepted).bind fun result _ =>
    Succeeds.bind ?_ fun late _ => ⟨_, rfl⟩
  unfold lateLock
  split
  · rename_i operand stored
    split at stored
    · exact (succeeds_storeData accepted stored).bind fun _ _ => ⟨_, rfl⟩
    · cases stored
  · exact succeeds_ok _

/-- The effects of an accepted instruction can be read off it. -/
theorem succeeds_ofInstr : Succeeds (ofInstr generation instr) := by
  have first {event : Event} : Succeeds (defineFirst generation instr event ∅) :=
    succeeds_defineFirst accepted
  unfold ofInstr
  split
  · exact succeeds_ofExport accepted ‹_›
  · exact first.bind fun _ _ => ⟨_, rfl⟩
  · exact first.bind fun _ _ => ⟨_, rfl⟩
  · exact succeeds_ofDataShare accepted
  · unfold ofDirectLoad
    rw [accepted.directLoad ‹_›]
    exact first.bind fun _ _ => ⟨_, rfl⟩
  iterate 5 exact succeeds_ofVectorMemory accepted
  · split <;> exact succeeds_ok _
  · split
    · unfold ofMessageReply
      rw [accepted.reply ‹_›]
      exact first.bind fun _ _ => ⟨_, rfl⟩
    · exact succeeds_ok _
  · exact succeeds_ok _

/-- The arithmetic effects of an accepted instruction can be read off. -/
theorem succeeds_arithmetic (latency : Int) : Succeeds (arithmetic generation instr latency) := by
  unfold arithmetic
  split
  · exact succeeds_ok _
  · exact succeeds_mapM fun definition member =>
      succeeds_trackRegister (accepted.definitions definition member)

end Reading

end Effect

variable {setting : Setting}

/-- An accepted instruction has a footprint. -/
theorem succeeds_footprint (accepted : WellFormed.Accepted instr) : Succeeds instr.footprint :=
  (resolve_flatMap accepted.operands).sequence.bind fun _ _ =>
    (resolve_flatMap accepted.definitions).sequence.bind fun _ _ => ⟨_, rfl⟩

/-- The demand of an accepted instruction can be computed in any state. -/
theorem succeeds_demand (accepted : WellFormed.Accepted instr) (state : State) (queue : Queue)
    (sync : Sync) : Succeeds (state.demand setting queue instr sync) :=
  (succeeds_footprint accepted).bind fun _ _ => ⟨_, rfl⟩

/-- An accepted instruction can be offered to any clause. -/
theorem succeeds_extend (accepted : WellFormed.Accepted instr) (clause : Clause) :
    Succeeds (clause.extend instr) := by
  have conflicts : Succeeds (clause.conflicts instr) := by
    refine Succeeds.bind (succeeds_anyM fun slot member => ?_) fun read _ => ?_
    · exact (resolve_flatMap accepted.operands slot member).bind fun _ _ => ⟨_, rfl⟩
    · cases read with
      | true => exact succeeds_ok _
      | false => exact succeeds_anyM fun slot member =>
          (resolve_flatMap accepted.definitions slot member).bind fun _ _ => ⟨_, rfl⟩
  refine conflicts.bind fun found _ => ?_
  cases found with
  | true => exact succeeds_ok _
  | false => exact (succeeds_footprint accepted).bind fun _ _ => ⟨_, rfl⟩

/-- Pulling the waits of a clause ahead succeeds when all instructions behind are accepted. -/
theorem succeeds_pullClause {first : Instr} (leading : WellFormed.Accepted first)
    {rest : List Instr} (accepted : ∀ instr ∈ rest, WellFormed.Accepted instr) (state : State)
    (queue : Queue) (clause : Option Clause) :
    Succeeds (pullClause setting first state queue clause rest) := by
  induction rest generalizing state queue clause with
  | nil => exact succeeds_ok _
  | cons next rest ih =>
      obtain ⟨here, others⟩ := List.forall_mem_cons.mp accepted
      unfold pullClause
      split
      · -- A clause that has begun and one that begins here go on in the same way.
        rcases clause with _ | clause
        on_goal 1 => refine (succeeds_footprint leading).bind fun begun _ => ?_
        on_goal 2 => refine (succeeds_ok clause).bind fun begun _ => ?_
        all_goals
          refine (succeeds_extend here begun).bind fun extended _ => ?_
          cases extended with
          | none => exact succeeds_ok _
          | some longer =>
              exact (succeeds_demand here state queue _).bind fun passed _ =>
                (ih others _ _ _).bind fun _ _ => ⟨_, rfl⟩
      · exact succeeds_ok _

/-- An accepted instruction can be issued in any state. -/
theorem succeeds_issueAll (accepted : WellFormed.Accepted instr) (state : State) :
    Succeeds (issueAll setting state instr) := by
  have issued (state : State) : Succeeds (state.issue setting.generation instr) :=
    (Effect.succeeds_ofInstr accepted).map _
  unfold issueAll
  dsimp only
  split
  · refine Succeeds.bind ?_ fun state _ => issued state
    exact (Effect.succeeds_arithmetic accepted _).bind fun _ _ => ⟨_, rfl⟩
  · exact (succeeds_ok state).bind fun state _ => issued state

/-- Accepted instructions can be run from every state. -/
theorem succeeds_transferFrom {instrs : List Instr}
    (accepted : ∀ instr ∈ instrs, WellFormed.Accepted instr) (covered : Nat) (state : State)
    (queue : Queue) : Succeeds (transferFrom setting covered state queue instrs) := by
  induction instrs generalizing covered state queue with
  | nil => exact succeeds_ok _
  | cons instr rest ih =>
      obtain ⟨here, others⟩ := List.forall_mem_cons.mp accepted
      unfold transferFrom
      refine (succeeds_demand here _ _ _).bind fun asked _ => ?_
      dsimp only
      split
      on_goal 1 => refine (succeeds_pullClause here others _ _ _).bind fun pulled _ => ?_
      all_goals
        refine (succeeds_ok _).bind fun ready _ => ?_
        refine (succeeds_issueAll here _).bind fun issued _ => ?_
        split
        · exact ih others _ _ _
        · exact (ih others _ _ _).bind fun _ _ => ⟨_, rfl⟩

end Hazard

/-- A block of accepted instructions can be run from any state. -/
theorem Block.succeeds_transfer {block : Block}
    (accepted : ∀ instr ∈ block.instrs, WellFormed.Accepted instr) (setting : Setting)
    (state : State) : Succeeds (block.transfer setting state) :=
  (succeeds_transferFrom accepted _ _ _).bind fun _ _ => ⟨_, rfl⟩

end WaveHazard
