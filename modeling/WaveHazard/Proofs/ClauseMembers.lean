import WaveHazard.Proofs.Turns

/-! # The members of a clause

What is known of the instructions whose waits have been pulled to the front of a clause: they are
accesses of one encoding, none of them reads or writes a register that an earlier one writes, or
writes one that an earlier one reads, and behind the waits that were pulled none of them has to
wait.
-/

namespace WaveHazard

open Machine Wait

namespace Hazard

variable {setting : Setting}

/-- Whether instructions of the encoding are accesses to memory. -/
def isAccess : Encoding → Bool
  | .smem | .ds | .ldsdir | .mubuf | .mtbuf | .mimg | .flat | .global | .scratch => true
  | _ => false

/-- Accesses of one encoding, and either all of them have results or none has. -/
structure Alike (first next : Instr) : Prop where
  encoding : next.encoding = first.encoding
  results : next.definitions.isEmpty = first.definitions.isEmpty

theorem Alike.trans {first second third : Instr} (left : Alike first second)
    (right : Alike first third) : Alike second third :=
  ⟨right.encoding.trans left.encoding.symm, right.results.trans left.results.symm⟩

/-- Instructions that share a clause are alike, and accesses unless they are exports. -/
theorem alike_of_sharesClause {first next : Instr} (shares : first.sharesClause next = true) :
    Alike first next ∧ (first.isExport = false → isAccess first.encoding = true) := by
  unfold Instr.sharesClause at shares
  split at shares
  · cases shares
  · rename_i results
    split at shares
    · cases shares
    · rename_i encoding
      simp only [bne_iff_ne, ne_eq, not_not] at results encoding
      refine ⟨⟨encoding.symm, results.symm⟩, fun notExport => ?_⟩
      have access : (first.isFlatLike || first.accessesShared || first.isScalarMemory ||
          first.isVectorMemory) = true := by
        split at shares
        · by_contra other
          simp only [Bool.or_eq_true, not_or, Bool.not_eq_true] at other
          obtain ⟨⟨⟨flat, shared⟩, scalar⟩, vector⟩ := other
          simp [flat, shared, scalar, vector, notExport] at shares
        · cases shares
      unfold Instr.isFlatLike Instr.accessesShared Instr.isDataShare Instr.isScalarMemory
        Instr.isVectorMemory at access
      revert access
      generalize first.encoding = kind
      cases kind <;> simp [isAccess, Encoding.isFlatLike, Encoding.isVectorMemory]

/-- The second footprint neither reads nor writes what the first one writes, and does not write what
the first one reads. -/
structure Apart (first second : Footprint) : Prop where
  reads : ∀ slot ∈ second.reads, slot ∉ first.writes
  writes : ∀ slot ∈ second.writes, slot ∉ first.writes ∧ slot ∉ first.reads

section Extending

/-- A search that finds nothing has tested every item. -/
theorem eq_false_of_anyM {α : Type} {test : α → Except Fault Bool} {items : List α}
    (failing : items.anyM test = .ok false) : ∀ item ∈ items, test item = .ok false := by
  induction items with
  | nil => exact fun _ member => absurd member List.not_mem_nil
  | cons first rest ih =>
      rw [List.anyM] at failing
      obtain ⟨found, tested, failing⟩ := Outcome.bind_eq_ok.mp failing
      cases found with
      | true => cases failing
      | false =>
          intro item member
          rcases List.mem_cons.mp member with rfl | later
          · exact tested
          · exact ih failing item later

/-- Every slot of a list of slots inside the file was one of the items. -/
theorem ok_mem_of_sequenceSlots {slots : List (Except Fault Slot)} {found : List Slot}
    (inside : sequenceSlots slots = .ok found) {slot : Slot} (member : slot ∈ found) :
    .ok slot ∈ slots := by
  obtain ⟨item, listed, same⟩ := Outcome.mem_of_mapM_eq_ok inside member
  exact same ▸ listed

/-- An instruction that extends a clause is apart from it. -/
theorem apart_of_extend {clause more : Clause} {instr : Instr}
    (extended : clause.extend instr = .ok (some more)) :
    ∃ footprint, instr.footprint = .ok footprint ∧ Apart clause footprint ∧
      more = { reads := clause.reads ++ footprint.reads,
               writes := clause.writes ++ footprint.writes } := by
  obtain ⟨conflict, tested, extended⟩ := Outcome.bind_eq_ok.mp extended
  cases conflict with
  | true => cases extended
  | false =>
      obtain ⟨footprint, touches, extended⟩ := Outcome.bind_eq_ok.mp extended
      cases extended
      refine ⟨footprint, touches, ?_, rfl⟩
      obtain ⟨reading, reads, tested⟩ := Outcome.bind_eq_ok.mp tested
      cases reading with
      | true => cases tested
      | false =>
          obtain ⟨found, read, touches⟩ := Outcome.bind_eq_ok.mp touches
          obtain ⟨written, wrote, touches⟩ := Outcome.bind_eq_ok.mp touches
          cases touches
          constructor
          · intro slot member
            have free := eq_false_of_anyM reads _ (ok_mem_of_sequenceSlots read member)
            simpa [bind, Except.bind, pure, Except.pure] using free
          · intro slot member
            have free := eq_false_of_anyM tested _ (ok_mem_of_sequenceSlots wrote member)
            simpa [bind, Except.bind, pure, Except.pure] using free

end Extending

/-- Instructions join a clause one after the other, each with its waits on top of the queue. The
footprints of those that have joined are collected. -/
inductive Joins (setting : Setting) (first : Instr) :
    State → Queue → Clause → List (Instr × Footprint) → State → Queue → Prop where
  | done (state : State) (queue : Queue) (clause : Clause) :
      Joins setting first state queue clause [] state queue
  | join {state middle final : State} {queue passed last : Queue} {clause : Clause}
      {next : Instr} {footprint : Footprint} {members : List (Instr × Footprint)} :
      first.sharesClause next = true → next.footprint = .ok footprint → Apart clause footprint →
        state.require setting queue next footprint next.sync = (middle, passed) →
          Joins setting first middle passed
            { reads := clause.reads ++ footprint.reads,
              writes := clause.writes ++ footprint.writes } members final last →
            Joins setting first state queue clause ((next, footprint) :: members) final last

/-- Pulling the waits of a clause that has begun lets its members join it. -/
theorem joins_of_pullClause {first : Instr} {rest : List Instr} {state final : State}
    {queue last : Queue} {clause : Clause} {joined : Nat}
    (pulled : pullClause setting first state queue (some clause) rest =
      .ok (final, last, joined)) :
    ∃ members, Joins setting first state queue clause members final last ∧
      members.map Prod.fst = rest.take joined ∧ members.length = joined := by
  induction rest generalizing state queue clause joined with
  | nil =>
      cases pulled
      exact ⟨[], .done _ _ _, rfl, rfl⟩
  | cons next rest ih =>
      unfold pullClause at pulled
      split at pulled
      · rename_i shares
        obtain ⟨started, begun, pulled⟩ := Outcome.bind_eq_ok.mp pulled
        cases begun
        obtain ⟨more, extends', pulled⟩ := Outcome.bind_eq_ok.mp pulled
        cases more with
        | none =>
            cases pulled
            exact ⟨[], .done _ _ _, rfl, rfl⟩
        | some more =>
            obtain ⟨⟨middle, passed⟩, demanded, pulled⟩ := Outcome.bind_eq_ok.mp pulled
            obtain ⟨⟨after, asked, number⟩, others, done⟩ := Outcome.bind_eq_ok.mp pulled
            cases done
            obtain ⟨footprint, touches, apart, rfl⟩ := apart_of_extend extends'
            obtain ⟨_, again, demanded⟩ := Outcome.bind_eq_ok.mp demanded
            cases touches.symm.trans again
            obtain ⟨members, joins, listed, counted⟩ := ih others
            exact ⟨(next, footprint) :: members,
              .join shares touches apart (Except.ok.inj demanded) joins, by simp [listed],
              by simp [counted]⟩
      · cases pulled
        exact ⟨[], .done _ _ _, rfl, rfl⟩

/-- A clause that is extended begins with the registers of its first instruction. -/
theorem begins_of_pullClause {first : Instr} {rest : List Instr} {state final : State}
    {queue last : Queue} {joined : Nat}
    (pulled : pullClause setting first state queue none rest = .ok (final, last, joined))
    (extended : 0 < joined) :
    ∃ started, first.footprint = .ok started ∧
      pullClause setting first state queue (some started) rest = .ok (final, last, joined) := by
  cases rest with
  | nil =>
      cases pulled
      cases extended
  | cons next rest =>
      unfold pullClause at pulled ⊢
      split at pulled
      · rename_i shares
        obtain ⟨started, begun, pulled⟩ := Outcome.bind_eq_ok.mp pulled
        refine ⟨started, begun, ?_⟩
        rw [if_pos shares]
        exact pulled
      · cases pulled
        cases extended

namespace Joins

variable {first : Instr} {state final : State} {queue last : Queue} {clause : Clause}
  {members : List (Instr × Footprint)}

/-- The members belong to the clause by their kind, and their registers lie in the file. -/
theorem shares (joins : Joins setting first state queue clause members final last) :
    ∀ member ∈ members,
      first.sharesClause member.1 = true ∧ member.1.footprint = .ok member.2 := by
  induction joins with
  | done _ _ _ => exact fun _ member => absurd member List.not_mem_nil
  | join shares touches _ _ _ ih => exact List.forall_mem_cons.mpr ⟨⟨shares, touches⟩, ih⟩

/-- The members are apart from the clause they join, and later ones from earlier ones: the clause
grows with each of them. -/
theorem apart (joins : Joins setting first state queue clause members final last) :
    (∀ member ∈ members, Apart clause member.2) ∧
      members.Pairwise fun earlier later => Apart earlier.2 later.2 := by
  induction joins with
  | done _ _ _ => exact ⟨fun _ member => absurd member List.not_mem_nil, .nil⟩
  | join _ _ apart _ _ ih =>
      obtain ⟨others, pairs⟩ := ih
      refine ⟨List.forall_mem_cons.mpr ⟨apart, fun member listed => ?_⟩,
        .cons (fun member listed => ?_) pairs⟩
      all_goals
        obtain ⟨reads, writes⟩ := others member listed
        simp only [List.mem_append, not_or] at reads writes
      · exact ⟨fun slot read => (reads slot read).1,
          fun slot written => ⟨(writes slot written).1.1, (writes slot written).2.1⟩⟩
      · exact ⟨fun slot read => (reads slot read).2,
          fun slot written => ⟨(writes slot written).1.2, (writes slot written).2.2⟩⟩

/-- Who does not have to wait in front of the waits of the clause does not have to behind them. -/
theorem keepsReady (joins : Joins setting first state queue clause members final last)
    {instr : Instr} {footprint : Footprint} (ready : state.Ready setting instr footprint) :
    final.Ready setting instr footprint := by
  induction joins with
  | done _ _ _ => exact ready
  | join _ _ _ required _ ih => exact ih (ready.require required)

/-- Behind the waits of the clause none of its members has to wait. -/
theorem ready (joins : Joins setting first state queue clause members final last) :
    ∀ member ∈ members, final.Ready setting member.1 member.2 := by
  induction joins with
  | done _ _ _ => exact fun _ member => absurd member List.not_mem_nil
  | join _ _ _ required joins ih =>
      exact List.forall_mem_cons.mpr ⟨joins.keepsReady (State.ready_of_require required), ih⟩

end Joins

end Hazard

end WaveHazard
