import WaveHazard.Proofs.RegisterView
import WaveHazard.Proofs.TouchTrace
import WaveHazard.Proofs.Validation

/-! # Exact thresholds

The analysis keeps one number for a register and a counter: it is set, grows and is set back as
instructions are issued. From GFX10 on, after any run of instructions from the empty state, it is
what counting in the trace yields. If the operations that touch the register and are counted there
are all of one event, the threshold is the number of operations of that event behind the last of
them, up to the largest one that can be waited for. With several events it is 0, and scalar memory
completes out of order, so whatever waits for it drains its counter.
-/

namespace WaveHazard

open Machine Wait

namespace Machine.Generation

open WaveHazard.Hazard

variable {generation : Generation}

/-- From GFX10 on only scalar memory completes out of order. -/
theorem isUnordered_eq_holds_smem (recent : .gfx10 ≤ generation) (events : Events) :
    generation.isUnordered events = events.holds .smem := by
  have only : generation.unordered = Events.single .smem := by
    revert recent
    cases generation <;> decide
  unfold isUnordered
  rw [only, Bool.eq_iff_iff, FlagSet.intersects_iff]
  constructor
  · rintro ⟨position, flagged, held⟩
    rw [Events.single, FlagSet.has_flag, Bool.and_eq_true] at flagged
    rw [← of_decide_eq_true flagged.2] at held
    exact held
  · intro held
    exact ⟨Event.smem.index, by decide, held⟩

/-- The flags of what a counter counts stand for events. -/
theorem exists_of_has_counted {counter : Counter} {position : Nat}
    (held : (generation.counted counter).has position = true) :
    ∃ event : Event, event.index = position := by
  by_contra nameless
  have unlisted (events : List Event) : (Events.ofList events).has position = false := by
    have fold (set : Events) (without : set.has position = false) :
        FlagSet.has (events.foldl (fun set event => set ||| Events.single event) set) position =
          false := by
      induction events generalizing set with
      | nil => exact without
      | cons first rest ih =>
          have other : first.index ≠ position := fun same => nameless ⟨first, same⟩
          exact ih _ (by simp [without, Events.single, other])
    exact fold ∅ (FlagSet.has_empty position)
  unfold counted at held
  split at held <;> (try split at held) <;> simp [unlisted] at held

/-- Of some events a counter counts precisely one. -/
theorem and_counted_eq_single {events : Events} {counter : Counter} {event : Event} :
    events &&& generation.counted counter = Events.single event ↔
      ∀ other, events.holds other = true ∧ (generation.counted counter).holds other = true ↔
        other = event := by
  constructor
  · intro same other
    have held := congrArg (Events.holds · other) same
    simp only [Events.holds_and, Events.holds_single] at held
    rw [← Bool.and_eq_true, held, decide_eq_true_eq, eq_comm]
  · intro only
    apply FlagSet.ext_has
    intro position
    by_cases there : ∃ other : Event, other.index = position
    · obtain ⟨other, rfl⟩ := there
      change Events.holds (events &&& generation.counted counter) other =
        (Events.single event).holds other
      rw [Events.holds_and, Events.holds_single, Bool.eq_iff_iff, Bool.and_eq_true, only other,
        decide_eq_true_eq, eq_comm]
    · have uncounted : (generation.counted counter).has position = false :=
        eq_false_of_ne_true fun held => there (exists_of_has_counted held)
      have other : event.index ≠ position := fun same => there ⟨event, same⟩
      simp [uncounted, Events.single, other]

end Machine.Generation

namespace Hazard

variable {generation : Generation}

section Spec

/-- The events of the operations that touch a slot and are counted by a counter. -/
def touching (generation : Generation) (counter : Counter) (slot : Slot) (trace : List Touch) :
    List Event :=
  (trace.filter fun touch =>
    touch.slots.contains slot && (generation.counted counter).holds touch.event).map Touch.event

/-- The number of operations of an event behind the last one of them that touches a slot. -/
def issuedSince (slot : Slot) (event : Event) (trace : List Touch) : Nat :=
  (trace.reverse.takeWhile fun touch =>
    !(touch.event = event && touch.slots.contains slot)).countP fun touch => touch.event = event

/-- The threshold of a slot on a counter, read off the trace. -/
def exactThreshold (generation : Generation) (counter : Counter) (slot : Slot)
    (trace : List Touch) : Threshold :=
  match touching generation counter slot trace with
  | [] => none
  | event :: others =>
      if others.all (· = event) then
        some (min (generation.maxThreshold counter) (issuedSince slot event trace))
      else some 0

variable {counter : Counter} {slot : Slot} {trace touches : List Touch} {event : Event}

theorem touching_append : touching generation counter slot (trace ++ touches) =
    touching generation counter slot trace ++ touching generation counter slot touches := by
  simp [touching]

/-- An event that touches a slot and is counted is among those collected. -/
theorem mem_touching : event ∈ touching generation counter slot trace ↔
    (generation.counted counter).holds event = true ∧
      ∃ touch ∈ trace, touch.event = event ∧ slot ∈ touch.slots := by
  simp only [touching, List.mem_map, List.mem_filter, Bool.and_eq_true, List.contains_iff_mem]
  constructor
  · rintro ⟨touch, ⟨listed, touched, counted⟩, rfl⟩
    exact ⟨counted, touch, listed, rfl, touched⟩
  · rintro ⟨counted, touch, listed, rfl, touched⟩
    exact ⟨touch, ⟨listed, touched, counted⟩, rfl⟩

/-- Operations that do not touch the slot are counted on top. -/
theorem issuedSince_of_untouched
    (untouched : ∀ touch ∈ touches, touch.event = event → slot ∉ touch.slots) :
    issuedSince slot event (trace ++ touches) =
      issuedSince slot event trace + (touches.map Touch.event).count event := by
  unfold issuedSince
  rw [List.reverse_append, List.takeWhile_append_of_pos, List.countP_append, Nat.add_comm,
    List.countP_reverse]
  · congr 1
    rw [List.count, List.countP_map]
    exact List.countP_congr fun touch _ => by simp
  · intro touch listed
    have apart := untouched touch (List.mem_reverse.mp listed)
    simpa only [Bool.not_eq_true', Bool.and_eq_false_imp, decide_eq_true_eq,
      List.contains_eq_mem, decide_eq_false_iff_not] using apart

/-- An operation that touches the slot leaves none behind it, if it is the only one of its event. -/
theorem issuedSince_of_touched (distinct : (touches.map Touch.event).Nodup)
    (touched : ∃ touch ∈ touches, touch.event = event ∧ slot ∈ touch.slots) :
    issuedSince slot event (trace ++ touches) = 0 := by
  obtain ⟨touch, listed, same, inside⟩ := touched
  obtain ⟨before, after, rfl⟩ := List.append_of_mem listed
  have others : ∀ other ∈ after, other.event ≠ event := by
    intro other later equal
    rw [List.map_append, List.map_cons] at distinct
    have apart := (List.nodup_cons.mp distinct.of_append_right).1
    exact apart (List.mem_map.mpr ⟨other, later, equal.trans same.symm⟩)
  unfold issuedSince
  rw [List.countP_eq_zero]
  intro other taken
  have listed : other ∈ after.reverse := by
    have whole : (trace ++ (before ++ touch :: after)).reverse =
        after.reverse ++ touch :: (before.reverse ++ trace.reverse) := by simp
    rw [whole, List.takeWhile_append_of_pos (fun other later => by
      simp [others other (List.mem_reverse.mp later)]),
      List.takeWhile_cons_of_neg (by simp [same, inside]), List.append_nil] at taken
    exact taken
  simpa using others other (List.mem_reverse.mp listed)

/-- A trace whose last operations touch the slot has the threshold 0. -/
theorem exactThreshold_of_touched (distinct : (touches.map Touch.event).Nodup)
    (touched : touching generation counter slot touches ≠ []) :
    exactThreshold generation counter slot (trace ++ touches) = some 0 := by
  unfold exactThreshold
  rw [touching_append]
  split
  · rename_i untouched
    exact absurd (List.append_eq_nil_iff.mp untouched).2 touched
  · rename_i event others split
    by_cases same : others.all (· = event) = true
    · rw [if_pos same]
      obtain ⟨last, listed⟩ := List.exists_mem_of_ne_nil _ touched
      have equal : last = event := by
        have member : last ∈ event :: others := split ▸ List.mem_append_right _ listed
        rcases List.mem_cons.mp member with here | there
        · exact here
        · exact of_decide_eq_true (List.all_eq_true.mp same last there)
      subst equal
      rw [issuedSince_of_touched distinct (mem_touching.mp listed).2, Nat.min_zero]
    · rw [if_neg same]

/-- Operations that do not touch the slot let its threshold grow, if they are of the one event that
it waits for. -/
theorem exactThreshold_of_single (distinct : (touches.map Touch.event).Nodup)
    (untouched : touching generation counter slot touches = [])
    (counted : (generation.counted counter).holds event = true)
    (single : ∀ other, other ∈ touching generation counter slot trace ↔ other = event) :
    exactThreshold generation counter slot (trace ++ touches) =
      if event ∈ touches.map Touch.event then
        (exactThreshold generation counter slot trace).increment (generation.maxThreshold counter)
      else exactThreshold generation counter slot trace := by
  have free : ∀ touch ∈ touches, touch.event = event → slot ∉ touch.slots := by
    intro touch listed same inside
    have member := mem_touching.mpr ⟨counted, touch, listed, same, inside⟩
    rw [untouched] at member
    cases member
  obtain ⟨others, found⟩ : ∃ others, touching generation counter slot trace = event :: others := by
    cases found : touching generation counter slot trace with
    | nil =>
        have member := (single event).mpr rfl
        rw [found] at member
        cases member
    | cons first others =>
        cases (single first).mp (found ▸ List.mem_cons_self)
        exact ⟨others, rfl⟩
  have same : others.all (· = event) = true :=
    List.all_eq_true.mpr fun other listed =>
      decide_eq_true ((single other).mp (found ▸ List.mem_cons_of_mem _ listed))
  have before : exactThreshold generation counter slot trace =
      some (min (generation.maxThreshold counter) (issuedSince slot event trace)) := by
    unfold exactThreshold
    rw [found]
    exact if_pos same
  have after : exactThreshold generation counter slot (trace ++ touches) =
      some (min (generation.maxThreshold counter) (issuedSince slot event (trace ++ touches))) := by
    unfold exactThreshold
    rw [touching_append, untouched, List.append_nil, found]
    exact if_pos same
  rw [before, after, issuedSince_of_untouched free]
  by_cases issued : event ∈ touches.map Touch.event
  · rw [if_pos issued, List.count_eq_one_of_mem distinct issued]
    refine congrArg some ?_
    omega
  · rw [if_neg issued, List.count_eq_zero_of_not_mem issued, Nat.add_zero]

/-- Operations that do not touch the slot change nothing if it waits for none or for several
events. -/
theorem exactThreshold_of_several (untouched : touching generation counter slot touches = [])
    (several : ∀ event, ¬ ∀ other, other ∈ touching generation counter slot trace ↔
      other = event) :
    exactThreshold generation counter slot (trace ++ touches) =
      exactThreshold generation counter slot trace := by
  unfold exactThreshold
  rw [touching_append, untouched, List.append_nil]
  split
  · rfl
  · rename_i event others found
    have mixed : ¬ others.all (· = event) = true := by
      intro same
      refine several event fun other => ?_
      rw [found, List.mem_cons]
      refine ⟨fun member => member.elim id fun there => ?_, .inl⟩
      exact of_decide_eq_true (List.all_eq_true.mp same other there)
    rw [if_neg mixed, if_neg mixed]

end Spec

namespace State

variable {state : State} {slot : Slot} {counter : Counter} {event : Event}

/-- The thresholds of a slot, none if nothing is pending. -/
def pendingWait (state : State) (slot : Slot) : Requirement :=
  ((state.registers.get? slot).map Entry.wait).getD ∅

/-- The events that are pending for a slot. -/
def pendingEvents (state : State) (slot : Slot) : Events :=
  ((state.registers.get? slot).map Entry.events).getD ∅

/-- No flat load is outstanding that may return out of order with others. -/
def IsFlatInOrder (state : State) : Prop := state.flatVm = false ∧ state.flatLgkm = false

/-- Counting an operation is no flat load. -/
theorem IsFlatInOrder.count (flat : state.IsFlatInOrder) (event : Event) (sync : Sync) :
    (state.count generation event sync).IsFlatInOrder := by
  unfold State.count
  dsimp only
  split <;> exact flat

/-- Counting an operation lets no further register wait. -/
theorem pendingEvents_count (event : Event) (sync : Sync) :
    (state.count generation event sync).pendingEvents slot = state.pendingEvents slot := by
  unfold pendingEvents
  rw [get?_count]
  split
  · rfl
  · cases state.registers.get? slot with
    | none => rfl
    | some entry =>
        change (entry.age generation event _).events = entry.events
        unfold Entry.age
        split <;> rfl

/-- One more operation lets the threshold grow where it is of the only event that is pending. -/
theorem get_pendingWait_count (flat : state.IsFlatInOrder) (event : Event) (sync : Sync) :
    ((state.count generation event sync).pendingWait slot).get counter =
      if generation.isUnordered (state.pendingEvents slot) = false ∧
          generation.isUnordered (.single event) = false ∧
          state.pendingEvents slot &&& generation.counted counter = .single event then
        ((state.pendingWait slot).get counter).increment (generation.maxThreshold counter)
      else (state.pendingWait slot).get counter := by
  have aged : agedCounters generation state event = generation.countersOf event := by
    unfold agedCounters
    rw [flat.1, flat.2]
    rfl
  unfold pendingWait pendingEvents
  rw [get?_count, aged]
  by_cases unordered : generation.isUnordered (.single event) = true
  · rw [if_pos unordered, if_neg (by simp [unordered])]
  · rw [if_neg unordered]
    cases state.registers.get? slot with
    | none =>
        refine (if_neg fun ages => ?_).symm
        have held := (Generation.and_counted_eq_single.mp ages.2.2 event).mpr rfl
        simp at held
    | some entry =>
        change (entry.age generation event (generation.countersOf event)).wait.get counter =
          if generation.isUnordered entry.events = false ∧ _ ∧
            entry.events &&& generation.counted counter = .single event then
              (entry.wait.get counter).increment _
          else entry.wait.get counter
        unfold Entry.age
        by_cases mixed : generation.isUnordered entry.events = true
        · rw [if_pos mixed, if_neg (by simp [mixed])]
        · rw [if_neg mixed]
          change (ageRequirement ..).get counter = _
          rw [ageRequirement, Requirement.get_ofFn, Generation.holds_countersOf]
          refine if_congr ?_ rfl rfl
          rw [Bool.not_eq_true] at mixed unordered
          simp only [mixed, unordered, true_and, Bool.and_eq_true, beq_iff_eq,
            and_iff_right_iff_imp]
          intro same
          exact ((Generation.and_counted_eq_single.mp same event).mpr rfl).2

/-- A new producer adds its event. -/
theorem pendingEvents_track (slots : List Slot) (entry : Entry) :
    (state.track slots entry).pendingEvents slot =
      if slot ∈ slots then state.pendingEvents slot ||| entry.events
      else state.pendingEvents slot := by
  unfold pendingEvents
  rw [get?_track]
  split
  · cases state.registers.get? slot with
    | none =>
        refine FlagSet.ext_has fun position => ?_
        change entry.events.has position = FlagSet.has (∅ ||| entry.events) position
        simp
    | some held => rfl
  · rfl

/-- A new producer brings its thresholds. -/
theorem pendingWait_track (slots : List Slot) (entry : Entry) :
    (state.track slots entry).pendingWait slot =
      if slot ∈ slots then (state.pendingWait slot).combine entry.wait
      else state.pendingWait slot := by
  unfold pendingWait
  rw [get?_track]
  split
  · cases state.registers.get? slot with
    | none =>
        refine Requirement.ext_get fun counter => ?_
        change entry.wait.get counter = (Requirement.combine ∅ entry.wait).get counter
        rw [Requirement.get_combine, Requirement.get_empty]
        rfl
    | some held => rfl
  · rfl

/-- The effect lets the slot wait for an operation of the event. -/
def Reaches (generation : Generation) (slot : Slot) (event : Event) (effect : Effect) : Prop :=
  ∃ found, effect.LetsWait generation event found ∧ slot ∈ found

/-- An effect lets exactly the tracked slots wait for its event. -/
theorem reaches_track {found : List Slot} {other : Event} {logical onRead : Bool}
    {loads : LoadKind} :
    Reaches generation slot event
        (.track found (.ofEvent generation other logical onRead loads 0)) ↔
      other = event ∧ slot ∈ found := by
  constructor
  · rintro ⟨slots, ⟨_, _, _, same⟩, inside⟩
    obtain ⟨rfl, entries⟩ := Effect.track.inj same
    have events : Events.single other = Events.single event := congrArg Entry.events entries
    have held : (Events.single event).holds other = true := by simp [← events]
    rw [Events.holds_single, decide_eq_true_eq] at held
    exact ⟨held.symm, inside⟩
  · rintro ⟨rfl, inside⟩
    exact ⟨found, ⟨_, _, _, rfl⟩, inside⟩

/-- Noting a scalar store lets no slot wait. -/
theorem not_reaches_scalarStore : ¬ Reaches generation slot event .scalarStore := by
  rintro ⟨_, ⟨_, _, _, same⟩, _⟩
  cases same

section Heads

variable {heads : List (Event × Sync)}

/-- Counting several operations is no flat load. -/
theorem IsFlatInOrder.countAll (flat : state.IsFlatInOrder) (heads : List (Event × Sync)) :
    (state.applyAll generation (heads.map countOf)).IsFlatInOrder := by
  induction heads generalizing state with
  | nil => exact flat
  | cons head rest ih => exact ih (flat.count head.1 head.2)

/-- Counting several operations lets no further register wait. -/
theorem pendingEvents_heads (heads : List (Event × Sync)) :
    (state.applyAll generation (heads.map countOf)).pendingEvents slot =
      state.pendingEvents slot := by
  induction heads generalizing state with
  | nil => rfl
  | cons head rest ih => exact ih.trans (pendingEvents_count head.1 head.2)

/-- Operations that are not of the only event that is pending change no threshold. -/
theorem get_pendingWait_heads_of_still (flat : state.IsFlatInOrder)
    (still : ∀ event ∈ heads.map Prod.fst,
      ¬ (generation.isUnordered (state.pendingEvents slot) = false ∧
        generation.isUnordered (.single event) = false ∧
        state.pendingEvents slot &&& generation.counted counter = .single event)) :
    ((state.applyAll generation (heads.map countOf)).pendingWait slot).get counter =
      (state.pendingWait slot).get counter := by
  induction heads generalizing state with
  | nil => rfl
  | cons head rest ih =>
      have first := @get_pendingWait_count generation state slot counter flat head.1 head.2
      rw [if_neg (still head.1 List.mem_cons_self)] at first
      refine (ih (flat.count head.1 head.2) fun event listed => ?_).trans first
      rw [pendingEvents_count]
      exact still event (List.mem_cons_of_mem _ listed)

/-- The operations that are counted first let a threshold grow by one if they are of the only event
that is pending. -/
theorem get_pendingWait_heads_of_single (flat : state.IsFlatInOrder)
    (ordered : generation.isUnordered (state.pendingEvents slot) = false)
    (distinct : (heads.map Prod.fst).Nodup)
    (single : state.pendingEvents slot &&& generation.counted counter = .single event) :
    ((state.applyAll generation (heads.map countOf)).pendingWait slot).get counter =
      if event ∈ heads.map Prod.fst then
        ((state.pendingWait slot).get counter).increment (generation.maxThreshold counter)
      else (state.pendingWait slot).get counter := by
  have held := (Generation.and_counted_eq_single.mp single event).mpr rfl
  have alone : generation.isUnordered (.single event) = false :=
    eq_false_of_ne_true fun unordered =>
      Bool.false_ne_true (ordered.symm.trans (generation.isUnordered_of_holds held.1 unordered))
  induction heads generalizing state with
  | nil => rfl
  | cons head rest ih =>
      obtain ⟨absent, others⟩ := List.nodup_cons.mp distinct
      have first := @get_pendingWait_count generation state slot counter flat head.1 head.2
      have events := @pendingEvents_count generation state slot head.1 head.2
      refine (ih (flat.count head.1 head.2) (by rwa [events]) others (by rwa [events])
        (by rwa [events])).trans ?_
      by_cases here : head.1 = event
      · rw [here] at absent
        rw [if_neg absent, first, if_pos ⟨ordered, here ▸ alone, here ▸ single⟩, List.map_cons,
          if_pos (List.mem_cons.mpr (.inl here.symm))]
      · have unchanged : ((state.count generation head.1 head.2).pendingWait slot).get counter =
            (state.pendingWait slot).get counter := by
          rw [first, if_neg]
          rintro ⟨_, _, other⟩
          exact here ((Generation.and_counted_eq_single.mp single head.1).mp
            ((Generation.and_counted_eq_single.mp other head.1).mpr rfl))
        rw [unchanged]
        refine if_congr ?_ rfl rfl
        rw [List.map_cons, List.mem_cons, or_iff_right (Ne.symm here)]

end Heads

section Tracks

variable {tracks : List Effect}

/-- The effects of an instruction behind those that count: registers wait, and a scalar store may be
noted. -/
def AreTracks (generation : Generation) (tracks : List Effect) : Prop :=
  ∀ effect ∈ tracks, effect = .scalarStore ∨ ∃ event found, effect.LetsWait generation event found

/-- Behind tracking effects a slot waits for what it did before and for what reaches it. -/
theorem holds_pendingEvents_tracks (are : AreTracks generation tracks) :
    ((state.applyAll generation tracks).pendingEvents slot).holds event = true ↔
      (state.pendingEvents slot).holds event = true ∨
        ∃ effect ∈ tracks, Reaches generation slot event effect := by
  induction tracks generalizing state with
  | nil => simp [State.applyAll]
  | cons effect rest ih =>
      obtain ⟨first, others⟩ := List.forall_mem_cons.mp are
      rw [List.exists_mem_cons_iff, ← or_assoc]
      refine (ih others).trans (or_congr_left ?_)
      rcases first with rfl | ⟨other, found, logical, onRead, loads, rfl⟩
      · exact (or_iff_left not_reaches_scalarStore).symm
      · change ((state.track found _).pendingEvents slot).holds event = true ↔ _
        rw [pendingEvents_track, reaches_track]
        by_cases inside : slot ∈ found
        · rw [if_pos inside]
          change Events.holds (_ ||| Events.single other) event = true ↔ _
          simp [inside]
        · rw [if_neg inside]
          simp [inside]

/-- A register that does not come to wait for something on a counter keeps its threshold there. -/
theorem get_pendingWait_tracks_of_unreached (are : AreTracks generation tracks)
    (unreached : ∀ event, (generation.counted counter).holds event = true →
      ∀ effect ∈ tracks, ¬ Reaches generation slot event effect) :
    ((state.applyAll generation tracks).pendingWait slot).get counter =
      (state.pendingWait slot).get counter := by
  induction tracks generalizing state with
  | nil => rfl
  | cons effect rest ih =>
      obtain ⟨first, others⟩ := List.forall_mem_cons.mp are
      refine (ih others fun event counted effect listed =>
        unreached event counted effect (List.mem_cons_of_mem _ listed)).trans ?_
      rcases first with rfl | ⟨other, found, logical, onRead, loads, rfl⟩
      · rfl
      · change ((state.track found _).pendingWait slot).get counter = _
        rw [pendingWait_track]
        by_cases inside : slot ∈ found
        · rw [if_pos inside, Requirement.get_combine]
          have uncounted : (generation.counted counter).holds other = false :=
            eq_false_of_ne_true fun counted =>
              unreached other counted _ List.mem_cons_self (reaches_track.mpr ⟨rfl, inside⟩)
          change Threshold.stricter _
            ((Requirement.drain ∅ (generation.countersOf other).holds).get counter) = _
          rw [Requirement.get_drain, Generation.holds_countersOf, uncounted,
            if_neg Bool.false_ne_true, Requirement.get_empty]
          cases (state.pendingWait slot).get counter <;> rfl
        · rw [if_neg inside]

/-- A register that comes to wait for something on a counter has to wait until it drains, and so
does one that had to before. -/
theorem get_pendingWait_tracks_of_reached (are : AreTracks generation tracks)
    (reached : (state.pendingWait slot).get counter = some 0 ∨
      ∃ event, (generation.counted counter).holds event = true ∧
        ∃ effect ∈ tracks, Reaches generation slot event effect) :
    ((state.applyAll generation tracks).pendingWait slot).get counter = some 0 := by
  induction tracks generalizing state with
  | nil => exact reached.resolve_right (by simp)
  | cons effect rest ih =>
      obtain ⟨first, others⟩ := List.forall_mem_cons.mp are
      refine ih others ?_
      rcases first with rfl | ⟨other, found, logical, onRead, loads, rfl⟩
      · refine reached.imp_right ?_
        rintro ⟨event, counted, effect, listed, reaches⟩
        rcases List.mem_cons.mp listed with rfl | later
        · exact absurd reaches not_reaches_scalarStore
        · exact ⟨event, counted, effect, later, reaches⟩
      · have least (threshold : Threshold) : Threshold.stricter threshold (some 0) = some 0 := by
          cases threshold with
          | none => rfl
          | some n => exact congrArg some (Nat.min_zero n)
        have first (threshold : Threshold) : Threshold.stricter (some 0) threshold = some 0 := by
          cases threshold with
          | none => rfl
          | some n => exact congrArg some (Nat.zero_min n)
        have next : (state.apply generation (.track found
            (.ofEvent generation other logical onRead loads 0))).pendingWait slot =
              if slot ∈ found then (state.pendingWait slot).combine
                (.drain ∅ (generation.countersOf other).holds)
              else state.pendingWait slot := pendingWait_track _ _
        rcases reached with drained | ⟨event, counted, effect, listed, reaches⟩
        · left
          rw [next]
          split
          · rw [Requirement.get_combine, drained, first]
          · exact drained
        · rcases List.mem_cons.mp listed with rfl | later
          · obtain ⟨rfl, inside⟩ := reaches_track.mp reaches
            left
            rw [next, if_pos inside, Requirement.get_combine, Requirement.get_drain,
              Generation.holds_countersOf, if_pos counted, least]
          · exact .inr ⟨event, counted, effect, later, reaches⟩

/-- Tracking registers is no flat load. -/
theorem IsFlatInOrder.applyTracks (flat : state.IsFlatInOrder) (are : AreTracks generation tracks) :
    (state.applyAll generation tracks).IsFlatInOrder := by
  induction tracks generalizing state with
  | nil => exact flat
  | cons effect rest ih =>
      obtain ⟨first, others⟩ := List.forall_mem_cons.mp are
      refine ih ?_ others
      rcases first with rfl | ⟨other, found, logical, onRead, loads, rfl⟩ <;> exact flat

end Tracks

end State

/-- The operations of one instruction are of different events. -/
theorem nodup_touchesOf (generation : Generation) (instr : Instr) :
    ((touchesOf generation instr).map Touch.event).Nodup := by
  have events : (touchesOf generation instr).map Touch.event =
      (operationsOf generation instr).map Operation.event := by
    rw [touchesOf, List.map_map]
    rfl
  rw [events]
  have loads : ((vectorMemoryOperations generation instr).map Operation.event).Nodup := by
    rw [vectorMemoryOperations_eq]
    cases (if generation = .gfx6 then Effect.storeData? instr else none) with
    | none => simp
    | some data => simp [loadEvent_ne_vmemGprLock]
  unfold operationsOf
  dsimp only
  split
  case h_1 => split <;> simp
  case h_4 => split <;> simp
  case h_6 | h_7 | h_8 | h_9 | h_10 => exact loads
  case h_11 => split <;> simp
  case h_12 => split <;> simp
  all_goals simp

/-- The registers of the state wait for what the trace says. -/
structure Exact (generation : Generation) (trace : List Touch) (state : State) : Prop where
  flat : state.IsFlatInOrder
  events : ∀ slot event, (state.pendingEvents slot).holds event = true ↔
    ∃ touch ∈ trace, touch.event = event ∧ slot ∈ touch.slots
  bounds : ∀ slot, (∀ touch ∈ trace, slot ∈ touch.slots → touch.event ≠ .smem) → ∀ counter,
    (state.pendingWait slot).get counter = exactThreshold generation counter slot trace
  scalar : ∀ slot, (∃ touch ∈ trace, touch.event = .smem ∧ slot ∈ touch.slots) → ∀ counter,
    (generation.counted counter).holds .smem = true →
      (state.pendingWait slot).get counter = some 0

/-- In the empty state nothing waits, as the empty trace says. -/
theorem exact_empty : Exact generation [] ∅ where
  flat := ⟨rfl, rfl⟩
  events slot event := by
    have untouched : (∅ : State).pendingEvents slot = ∅ := by
      unfold State.pendingEvents
      rw [show (∅ : State).registers.get? slot = none from Index.SlotMap.get?_empty slot]
      rfl
    simp [untouched]
  bounds slot _ counter := by
    unfold State.pendingWait
    rw [show (∅ : State).registers.get? slot = none from Index.SlotMap.get?_empty slot]
    exact Requirement.get_empty counter
  scalar _ touched := by simp at touched

/-- The effects reach a slot with an event exactly when an operation of that event touches it. -/
theorem reaches_iff {touches : List Touch} {heads : List (Event × Sync)} {tracks : List Effect}
    (traced : Traced generation touches heads tracks) {slot : Slot} {event : Event} :
    (∃ effect ∈ tracks, State.Reaches generation slot event effect) ↔
      ∃ touch ∈ touches, touch.event = event ∧ slot ∈ touch.slots := by
  constructor
  · rintro ⟨effect, listed, reaches⟩
    rcases traced.only effect listed with rfl | ⟨touch, there, found, ⟨_, _, _, rfl⟩, inside⟩
    · exact absurd reaches State.not_reaches_scalarStore
    · obtain ⟨same, touched⟩ := State.reaches_track.mp reaches
      exact ⟨touch, there, same, inside slot touched⟩
  · rintro ⟨touch, there, rfl, touched⟩
    obtain ⟨effect, listed, reaches⟩ := traced.all touch there slot touched
    exact ⟨effect, listed, reaches⟩

/-- Issuing an instruction keeps what registers wait for in step with the trace. -/
theorem Exact.issue {trace : List Touch} {state after : State} {instr : Instr}
    (exact : Exact generation trace state) (recent : .gfx10 ≤ generation)
    (issued : state.issue generation instr = .ok after) :
    Exact generation (trace ++ touchesOf generation instr) after := by
  obtain ⟨effects, read, rfl⟩ := Outcome.map_eq_ok.mp issued
  obtain ⟨heads, tracks, rfl, traced⟩ := follow_of_ofInstr recent read
  have distinct := nodup_touchesOf generation instr
  generalize touchesOf generation instr = touches at traced distinct ⊢
  have are : State.AreTracks generation tracks := fun effect listed =>
    (traced.only effect listed).imp_right fun ⟨touch, _, found, lets, _⟩ =>
      ⟨touch.event, found, lets⟩
  have split : state.applyAll generation (heads.map countOf ++ tracks) =
      (state.applyAll generation (heads.map countOf)).applyAll generation tracks :=
    List.foldl_append
  rw [split]
  constructor
  case flat => exact (exact.flat.countAll heads).applyTracks are
  case events =>
    intro slot event
    rw [State.holds_pendingEvents_tracks are, State.pendingEvents_heads, exact.events,
      reaches_iff traced]
    simp only [List.mem_append, or_and_right, exists_or]
  case scalar =>
    rintro slot ⟨touch, listed, event, touched⟩ counter counted
    refine State.get_pendingWait_tracks_of_reached are ?_
    rcases List.mem_append.mp listed with before | now
    · left
      have held : (state.pendingEvents slot).holds .smem = true :=
        (exact.events slot .smem).mpr ⟨touch, before, event, touched⟩
      rw [State.get_pendingWait_heads_of_still exact.flat]
      · exact exact.scalar slot ⟨touch, before, event, touched⟩ counter counted
      · rintro other _ ⟨ordered, _⟩
        rw [Generation.isUnordered_eq_holds_smem recent, held] at ordered
        cases ordered
    · exact .inr ⟨.smem, counted, (reaches_iff traced).mpr ⟨touch, now, event, touched⟩⟩
  case bounds =>
    intro slot vector counter
    have before : ∀ touch ∈ trace, slot ∈ touch.slots → touch.event ≠ .smem :=
      fun touch listed => vector touch (List.mem_append_left _ listed)
    have bound := exact.bounds slot before counter
    have listed (event : Event) : event ∈ touching generation counter slot trace ↔
        (state.pendingEvents slot).holds event = true ∧
          (generation.counted counter).holds event = true := by
      rw [mem_touching, ← exact.events, and_comm]
    by_cases touched : touching generation counter slot touches = []
    · rw [State.get_pendingWait_tracks_of_unreached are]
      · by_cases one : ∃ event,
          state.pendingEvents slot &&& generation.counted counter = .single event
        · obtain ⟨event, single⟩ := one
          have ordered : generation.isUnordered (state.pendingEvents slot) = false := by
            rw [Generation.isUnordered_eq_holds_smem recent]
            refine eq_false_of_ne_true fun held => ?_
            obtain ⟨touch, there, event, inside⟩ := (exact.events slot .smem).mp held
            exact before touch there inside event
          have only := Generation.and_counted_eq_single.mp single
          rw [State.get_pendingWait_heads_of_single exact.flat ordered
              (by rw [traced.counts]; exact distinct) single,
            exactThreshold_of_single distinct touched ((only event).mpr rfl).2
              (fun other => (listed other).trans (only other)), traced.counts, bound]
        · rw [State.get_pendingWait_heads_of_still exact.flat fun event _ ages =>
              one ⟨event, ages.2.2⟩,
            exactThreshold_of_several touched fun event single => one ⟨event,
              Generation.and_counted_eq_single.mpr fun other =>
                (listed other).symm.trans (single other)⟩, bound]
      · intro event counted effect there reaches
        have member := mem_touching.mpr
          ⟨counted, (reaches_iff traced).mp ⟨effect, there, reaches⟩⟩
        rw [touched] at member
        cases member
    · rw [exactThreshold_of_touched distinct touched]
      obtain ⟨event, member⟩ := List.exists_mem_of_ne_nil _ touched
      obtain ⟨counted, now⟩ := mem_touching.mp member
      exact State.get_pendingWait_tracks_of_reached are
        (.inr ⟨event, counted, (reaches_iff traced).mpr now⟩)

/-- Issuing instructions one after the other keeps what registers wait for in step with the
trace. -/
theorem Exact.issues {trace : List Touch} {state after : State} {instrs : List Instr}
    (exact : Exact generation trace state) (recent : .gfx10 ≤ generation)
    (issued : instrs.foldlM (State.issue generation) state = .ok after) :
    Exact generation (trace ++ instrs.flatMap (touchesOf generation)) after := by
  induction instrs generalizing trace state with
  | nil =>
      cases issued
      simpa using exact
  | cons instr rest ih =>
      rw [List.foldlM_cons] at issued
      obtain ⟨middle, first, others⟩ := Outcome.bind_eq_ok.mp issued
      have next := ih (exact.issue recent first) others
      rwa [List.append_assoc, ← List.flatMap_cons] at next

/-- From GFX10 on, well-formed instructions can be issued one after the other from the empty state.
Afterwards every register that no scalar memory operation touched has, on every counter, precisely
the threshold that counting in the trace of the operations yields; one that scalar memory touched
has to wait until its counter drains. -/
theorem thresholds_count_the_trace (recent : .gfx10 ≤ generation) {instrs : List Instr}
    (wellFormed : ∀ instr ∈ instrs, WellFormed.checkInstr instr = .ok ()) :
    ∃ state, instrs.foldlM (State.issue generation) ∅ = .ok state ∧ ∀ slot,
      ((∀ touch ∈ instrs.flatMap (touchesOf generation), slot ∈ touch.slots →
          touch.event ≠ .smem) →
        ∀ counter, (state.pendingWait slot).get counter =
          exactThreshold generation counter slot (instrs.flatMap (touchesOf generation))) ∧
      ((∃ touch ∈ instrs.flatMap (touchesOf generation), touch.event = .smem ∧
          slot ∈ touch.slots) →
        ∀ counter, (generation.counted counter).holds .smem = true →
          (state.pendingWait slot).get counter = some 0) := by
  obtain ⟨state, issued⟩ : Outcome.Succeeds (instrs.foldlM (State.issue generation) ∅) :=
    Outcome.succeeds_foldlM (fun instr listed state =>
      (Effect.succeeds_ofInstr
        (WellFormed.accepted_of_checkInstr (wellFormed instr listed))).map _) ∅
  have exact := exact_empty.issues recent issued
  rw [List.nil_append] at exact
  exact ⟨state, issued, fun slot => ⟨exact.bounds slot, exact.scalar slot⟩⟩

namespace LoadsAndScalarLoad

/-- A load of a register. -/
def load (register : Nat) : Instr where
  opcode := .bufferLoadDword
  operands := [.reg ⟨0⟩ (.scalar 4)]
  definitions := [⟨⟨register⟩, .vector 1⟩]

/-- A scalar load of two registers, then loads of three more, and one of them from local memory on
top. -/
def instrs : List Instr :=
  [{ opcode := .sLoadDwordx2, operands := [.reg ⟨2⟩ (.scalar 2)],
     definitions := [⟨⟨4⟩, .scalar 2⟩] },
   load 256, load 257, load 258,
   { opcode := .dsReadB32, operands := [.const 0], definitions := [⟨⟨257⟩, .vector 1⟩] }]

end LoadsAndScalarLoad

open LoadsAndScalarLoad in
/-- Two loads have been issued behind the first one and one behind the second, which also waits for
local memory. The scalar load has to drain its counter. -/
theorem loads_counted : ∃ state, instrs.foldlM (State.issue .gfx11) ∅ = .ok state ∧
    (state.pendingWait ⟨256, by decide⟩).get .vm = some 2 ∧
    (state.pendingWait ⟨256, by decide⟩).get .lgkm = none ∧
    (state.pendingWait ⟨257, by decide⟩).get .vm = some 1 ∧
    (state.pendingWait ⟨257, by decide⟩).get .lgkm = some 0 ∧
    (state.pendingWait ⟨5, by decide⟩).get .lgkm = some 0 := by
  obtain ⟨state, issued, exact⟩ :=
    @thresholds_count_the_trace .gfx11 (by decide) instrs (by decide)
  refine ⟨state, issued, ?_, ?_, ?_, ?_, ?_⟩
  · exact ((exact _).1 (by decide) .vm).trans (by decide)
  · exact ((exact _).1 (by decide) .lgkm).trans (by decide)
  · exact ((exact _).1 (by decide) .vm).trans (by decide)
  · exact ((exact _).1 (by decide) .lgkm).trans (by decide)
  · exact (exact _).2 (by decide) .lgkm (by decide)

end Hazard

end WaveHazard
