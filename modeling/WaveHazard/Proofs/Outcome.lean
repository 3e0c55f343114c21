import Mathlib.Data.List.Forall2
import WaveHazard.Pass.Visitor

/-! # Computations that succeed

What is known when a computation that may fail has returned a value: each of its steps has
returned one as well. And the other way around: a computation returns a value when each of its steps
does.
-/

namespace WaveHazard

namespace Outcome

variable {ε α β : Type}

/-- A sequence returns a value when both of its steps do. -/
theorem bind_eq_ok {first : Except ε α} {next : α → Except ε β} {value : β} :
    (first >>= next) = .ok value ↔ ∃ middle, first = .ok middle ∧ next middle = .ok value := by
  cases first with
  | error reason =>
      constructor
      · intro failed
        cases failed
      · rintro ⟨_, failed, _⟩
        cases failed
  | ok middle =>
      constructor
      · intro done
        exact ⟨middle, rfl, done⟩
      · rintro ⟨_, same, done⟩
        cases same
        exact done

/-- A changed result is a value when the result was one. -/
theorem map_eq_ok {change : α → β} {result : Except ε α} {value : β} :
    result.map change = .ok value ↔
      ∃ original, result = .ok original ∧ change original = value := by
  cases result with
  | error reason => simp [Except.map]
  | ok original => simp [Except.map]

/-- A changed result is an error when the result was the same error. -/
theorem map_eq_error {change : α → β} {result : Except ε α} {reason : ε} :
    result.map change = .error reason ↔ result = .error reason := by
  cases result with
  | error reason => simp [Except.map]
  | ok original => simp [Except.map]

/-- A value that is there, faults aside, is what the computation has returned. -/
theorem eq_ok_of_toOption {result : Except ε α} {value : α}
    (found : result.toOption = some value) : result = .ok value := by
  cases result with
  | error reason => cases found
  | ok other =>
      cases found
      rfl

/-- A check of all elements passes when each of them does. -/
theorem forM_eq_ok {items : List α} {check : α → Except ε Unit} :
    items.forM check = .ok () ↔ ∀ item ∈ items, check item = .ok () := by
  induction items with
  | nil => exact ⟨fun _ _ member => absurd member List.not_mem_nil, fun _ => rfl⟩
  | cons first rest ih =>
      change (check first >>= fun _ => rest.forM check) = _ ↔ _
      rw [bind_eq_ok, List.forall_mem_cons, ← ih]
      exact ⟨fun ⟨_, passed, others⟩ => ⟨passed, others⟩, fun both => ⟨(), both.1, both.2⟩⟩

/-- A computation over all elements returns the values of each of them, in order. -/
theorem mapM_eq_ok {items : List α} {compute : α → Except ε β} {values : List β} :
    items.mapM compute = .ok values ↔
      List.Forall₂ (fun item value => compute item = .ok value) items values := by
  induction items generalizing values with
  | nil =>
      rw [List.mapM_nil, List.forall₂_nil_left_iff]
      exact ⟨fun same => by cases same; rfl, fun same => by rw [same]; rfl⟩
  | cons first rest ih =>
      rw [List.mapM_cons, bind_eq_ok, List.forall₂_cons_left_iff]
      constructor
      · rintro ⟨value, computed, remaining⟩
        obtain ⟨others, all, done⟩ := bind_eq_ok.mp remaining
        cases done
        exact ⟨value, others, computed, ih.mp all, rfl⟩
      · rintro ⟨value, others, computed, all, rfl⟩
        exact ⟨value, computed, bind_eq_ok.mpr ⟨others, ih.mpr all, rfl⟩⟩

/-- Every value of a computation over all elements comes from one of them. -/
theorem mem_of_mapM_eq_ok {items : List α} {compute : α → Except ε β} {values : List β}
    (computed : items.mapM compute = .ok values) {value : β} (member : value ∈ values) :
    ∃ item ∈ items, compute item = .ok value := by
  have all := mapM_eq_ok.mp computed
  clear computed
  induction all with
  | nil => exact absurd member List.not_mem_nil
  | @cons item found items values first _ ih =>
      rcases List.mem_cons.mp member with rfl | later
      · exact ⟨item, List.mem_cons_self, first⟩
      · obtain ⟨other, inside, done⟩ := ih later
        exact ⟨other, List.mem_cons_of_mem _ inside, done⟩

/-- The computation returns a value. -/
def Succeeds (result : Except ε α) : Prop := ∃ value, result = .ok value

theorem succeeds_ok (value : α) : Succeeds (.ok value : Except ε α) := ⟨value, rfl⟩

/-- A sequence succeeds when its second step does for the value of the first. -/
theorem Succeeds.bind {first : Except ε α} {next : α → Except ε β} (done : Succeeds first)
    (rest : ∀ value, first = .ok value → Succeeds (next value)) : Succeeds (first >>= next) := by
  obtain ⟨middle, found⟩ := done
  obtain ⟨value, last⟩ := rest middle found
  exact ⟨value, bind_eq_ok.mpr ⟨middle, found, last⟩⟩

/-- A choice succeeds when both branches do where they are taken. -/
theorem succeeds_ite {condition : Prop} [Decidable condition] {left right : Except ε α}
    (yes : condition → Succeeds left) (no : ¬condition → Succeeds right) :
    Succeeds (if condition then left else right) := by
  split
  · exact yes ‹_›
  · exact no ‹_›

theorem Succeeds.map {result : Except ε α} (done : Succeeds result) (change : α → β) :
    Succeeds (result.map change) := by
  obtain ⟨value, rfl⟩ := done
  exact ⟨change value, rfl⟩

/-- A computation over all elements succeeds when it does for each. -/
theorem succeeds_mapM {items : List α} {compute : α → Except ε β}
    (each : ∀ item ∈ items, Succeeds (compute item)) : Succeeds (items.mapM compute) := by
  induction items with
  | nil => exact ⟨[], rfl⟩
  | cons first rest ih =>
      obtain ⟨now, later⟩ := List.forall_mem_cons.mp each
      rw [List.mapM_cons]
      exact now.bind fun _ _ => (ih later).bind fun _ _ => ⟨_, rfl⟩

/-- A search ends at the latest with the last element. -/
theorem succeeds_anyM {items : List α} {test : α → Except ε Bool}
    (each : ∀ item ∈ items, Succeeds (test item)) : Succeeds (items.anyM test) := by
  induction items with
  | nil => exact ⟨false, rfl⟩
  | cons first rest ih =>
      obtain ⟨now, later⟩ := List.forall_mem_cons.mp each
      refine now.bind fun found _ => ?_
      cases found with
      | true => exact ⟨true, rfl⟩
      | false => exact ih later

/-- A fold succeeds when each step does from any value. -/
theorem succeeds_foldlM {items : List α} {step : β → α → Except ε β}
    (each : ∀ item ∈ items, ∀ value, Succeeds (step value item)) (start : β) :
    Succeeds (items.foldlM step start) := by
  induction items generalizing start with
  | nil => exact ⟨start, rfl⟩
  | cons first rest ih =>
      obtain ⟨now, later⟩ := List.forall_mem_cons.mp each
      rw [List.foldlM_cons]
      exact (now start).bind fun value _ => ih later value

/-- What every step of a fold keeps holds of its value. -/
theorem foldlM_keeps (property : β → Prop) {items : List α} {step : β → α → Except ε β}
    {start last : β} (folded : items.foldlM step start = .ok last) (holds : property start)
    (keeps : ∀ item ∈ items, ∀ value next, property value → step value item = .ok next →
      property next) : property last := by
  induction items generalizing start with
  | nil =>
      cases folded
      exact holds
  | cons first rest ih =>
      obtain ⟨now, later⟩ := List.forall_mem_cons.mp keeps
      rw [List.foldlM_cons] at folded
      obtain ⟨next, stepped, folded⟩ := bind_eq_ok.mp folded
      exact ih folded (now start next holds stepped) later

end Outcome

namespace Walk

variable {σ α β : Type}

/-- A sequence of steps of a pass goes on where the first one ends, unless that fails. -/
theorem run_bind (first : Walk σ α) (next : α → Walk σ β) (before : Session σ) :
    (first >>= next).run before =
      match first.run before with
      | (.ok middle, between) => (next middle).run between
      | (.error reason, between) => (.error reason, between) := by
  rw [ExceptT.run_bind]
  change StateT.bind first.run _ before = _
  unfold StateT.bind
  rcases first.run before with ⟨result, between⟩
  cases result <;> rfl

/-- Once its first step completes, a sequence goes on with the second. -/
theorem run_bind_of_ok {first : Walk σ α} {next : α → Walk σ β} {middle : α}
    {before between : Session σ} (done : first.run before = (.ok middle, between)) :
    (first >>= next).run before = (next middle).run between := by
  rw [run_bind, done]

/-- Where its first step stops, so does a sequence. -/
theorem run_bind_of_error {first : Walk σ α} {next : α → Walk σ β} {reason : Stop}
    {before after : Session σ} (failed : first.run before = (.error reason, after)) :
    (first >>= next).run before = (.error reason, after) := by
  rw [run_bind, failed]

/-- A sequence of steps of a pass returns a value when both of them do. -/
theorem run_bind_eq_ok {first : Walk σ α} {next : α → Walk σ β} {value : β}
    {before after : Session σ} :
    (first >>= next).run before = (.ok value, after) ↔
      ∃ middle between, first.run before = (.ok middle, between) ∧
        (next middle).run between = (.ok value, after) := by
  rw [run_bind]
  rcases first.run before with ⟨result, between⟩
  cases result with
  | error reason =>
      constructor
      · intro failed
        cases failed
      · rintro ⟨_, _, failed, _⟩
        cases failed
  | ok middle =>
      constructor
      · intro done
        exact ⟨middle, between, rfl, done⟩
      · rintro ⟨_, _, same, done⟩
        cases same
        exact done

/-- A value that a pass goes on with was there. -/
theorem run_ofStop_eq_ok {result : Except Stop α} {value : α} {before after : Session σ} :
    (ofStop result).run before = (.ok value, after) ↔ result = .ok value ∧ before = after := by
  cases result with
  | error reason =>
      constructor
      · intro failed
        cases failed
      · rintro ⟨failed, _⟩
        cases failed
  | ok found =>
      constructor
      · intro done
        cases done
        exact ⟨rfl, rfl⟩
      · rintro ⟨same, rfl⟩
        cases same
        rfl

/-- The value of a computation without faults was there. -/
theorem run_ofFault_eq_ok {result : Except Fault α} {value : α} {before after : Session σ} :
    (ofFault result).run before = (.ok value, after) ↔ result = .ok value ∧ before = after := by
  have same : (ofFault result : Walk σ α) = ofStop (result.mapError .faulted) := by
    cases result <;> rfl
  rw [same, run_ofStop_eq_ok]
  cases result <;> simp [Except.mapError]

/-- The value of a check that passed was there. -/
theorem run_ofCheck_eq_ok {result : Except Diagnostic α} {value : α} {before after : Session σ} :
    (ofCheck result).run before = (.ok value, after) ↔ result = .ok value ∧ before = after := by
  have same : (ofCheck result : Walk σ α) = ofStop (result.mapError .refused) := by
    cases result <;> rfl
  rw [same, run_ofStop_eq_ok]
  cases result <;> simp [Except.mapError]

end Walk

namespace Pass

variable {α : Type} {pass : Pass Unit} {configure : OptionTable → Except Stop α}
  {visit : α → Visitor Unit} {texts : List String} {before after : Session Unit}

/-- The pass is prepared by configuring it from the table of its options. -/
def Prepares (pass : Pass Unit) (configure : OptionTable → Except Stop α)
    (visit : α → Visitor Unit) : Prop :=
  ∀ texts, pass.prepare texts =
    do return visit (← Walk.ofStop (configure (← pass.readOptions texts)))

/-- The pass ends as its configuration does, in the session behind the reading of its options. -/
theorem Prepares.run (prepares : pass.Prepares configure visit) {table : OptionTable}
    (read : (pass.readOptions texts).run before = (.ok table, after)) :
    (pass.prepare texts).run before = ((configure table).map visit, after) := by
  rw [prepares, Walk.run_bind_of_ok read]
  cases configure table <;> rfl

/-- A pass that was prepared was configured, and has not touched the program yet. -/
theorem Prepares.of_ok (prepares : pass.Prepares configure visit) {visitor : Visitor Unit}
    (prepared : (pass.prepare texts).run before = (.ok visitor, after)) :
    (∃ config, visit config = visitor) ∧ after.program = before.program := by
  rw [prepares.run rfl] at prepared
  obtain ⟨configured, rfl⟩ := Prod.mk.inj prepared
  obtain ⟨config, _, same⟩ := Outcome.map_eq_ok.mp configured
  exact ⟨⟨config, same⟩, rfl⟩

end Pass

end WaveHazard
