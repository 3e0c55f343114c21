import Mathlib.Data.Fintype.Card
import Mathlib.Data.List.FinRange
import WaveHazard.Index.SlotMap

/-! # Slot maps as ordered maps

A slot map answers like an ordered map that is used in the same way, and lists the same entries: in
ascending order of their keys, each once. The number of entries that it stores is the number of its
filled slots, whatever has been done to it. So which operations built a map does not show: maps with
the same contents are equal, the stored numbers included.
-/

namespace WaveHazard.Index

/-- One use of a map with the keys below `capacity`.

Those that go through all entries are given by what becomes of each. They come to an entry once and
in the order of the keys, so what such a use remembers on its way is settled by the key. -/
inductive MapUse (capacity : Nat) (α : Type) where
  /-- Store a value and ask for the one that was there. -/
  | insert (key : Fin capacity) (value : α)
  /-- Take an entry out and ask for its value. -/
  | erase (key : Fin capacity)
  /-- Ask for a value and whether it is new, having stored one if there was none. -/
  | getOrInsert (key : Fin capacity) (value : α)
  /-- Look at a value and change it in place. -/
  | modify (key : Fin capacity) (change : α → α)
  /-- Go through the entries and change their values in place. -/
  | modifyAll (change : Fin capacity → α → α)
  /-- Go through the entries and change or drop each. -/
  | retain (keep : Fin capacity → α → Option α)
  | clear

/-- What a use of a map tells. -/
inductive MapAnswer (capacity : Nat) (α : Type) where
  /-- The value that was there. -/
  | held (value : Option α)
  /-- The value that is there now, and whether it is new. -/
  | present (value : α) (fresh : Bool)
  /-- The entries as they were come to. -/
  | visited (entries : List (Fin capacity × α))
  | done

/-- The answers of a machine to a series of uses, and the state it is left in. -/
def answersOf {ι ω σ : Type} (step : ι → σ → ω × σ) : List ι → σ → List ω × σ
  | [], state => ([], state)
  | use :: rest, state =>
      let (answer, state) := step use state
      let (answers, final) := answersOf step rest state
      (answer :: answers, final)

/-- Machines that answer alike and stay related with every use answer a series of uses alike. -/
theorem answersOf_alike {ι ω σ τ : Type} {left : ι → σ → ω × σ} {right : ι → τ → ω × τ}
    {related : σ → τ → Prop}
    (alike : ∀ use first second, related first second →
      (left use first).1 = (right use second).1 ∧
        related (left use first).2 (right use second).2)
    (uses : List ι) {first : σ} {second : τ} (start : related first second) :
    (answersOf left uses first).1 = (answersOf right uses second).1 ∧
      related (answersOf left uses first).2 (answersOf right uses second).2 := by
  induction uses generalizing first second with
  | nil => exact ⟨rfl, start⟩
  | cons use rest ih =>
      obtain ⟨answer, next⟩ := alike use first second start
      obtain ⟨answers, final⟩ := ih next
      exact ⟨congrArg₂ List.cons answer answers, final⟩

variable {capacity : Nat} {α : Type}

/-- The ordered map with keys below `capacity`. -/
abbrev OrderedMap (capacity : Nat) (α : Type) := Std.ExtTreeMap (Fin capacity) α

namespace MapUse

/-- A use of a slot map. -/
def onSlots (use : MapUse capacity α) (map : SlotMap capacity α) :
    MapAnswer capacity α × SlotMap capacity α :=
  match use with
  | insert key value =>
      let (old, map) := map.exchange key value
      (.held old, map)
  | erase key =>
      let (old, map) := map.extract key
      (.held old, map)
  | getOrInsert key value =>
      let ((held, fresh), map) := map.getOrInsert key value
      (.present held fresh, map)
  | modify key change => (.held (map.get? key), map.modify key change)
  | modifyAll change => (.visited map.toList, map.mapWithKey change)
  | retain keep => (.visited map.toList, map.retain keep)
  | clear => (.done, map.clear)

/-- The same use of an ordered map. -/
def onOrdered (use : MapUse capacity α) (map : OrderedMap capacity α) :
    MapAnswer capacity α × OrderedMap capacity α :=
  match use with
  | insert key value => (.held map[key]?, map.insert key value)
  | erase key => (.held map[key]?, map.erase key)
  | getOrInsert key value =>
      (.present (map[key]?.getD value) map[key]?.isNone, map.insertIfNew key value)
  | modify key change => (.held map[key]?, map.modify key change)
  | modifyAll change => (.visited map.toList, map.map change)
  | retain keep => (.visited map.toList, map.filterMap keep)
  | clear => (.done, ∅)

end MapUse

namespace SlotMap

/-! ## Entries -/

/-- The entries come in strictly ascending order of their keys. -/
theorem pairwise_toList (map : SlotMap capacity α) :
    map.toList.Pairwise fun earlier later => earlier.1 < later.1 := by
  unfold toList
  rw [List.pairwise_filterMap]
  refine (List.pairwise_lt_finRange capacity).imp fun {first second} before => ?_
  rintro entry found other next
  obtain ⟨_, _, rfl⟩ := Option.map_eq_some_iff.mp found
  obtain ⟨_, _, rfl⟩ := Option.map_eq_some_iff.mp next
  exact before

/-- The slots are the values of the keys in order. -/
theorem toList_slots (map : SlotMap capacity α) :
    map.slots.toList = (List.finRange capacity).map map.get? := by
  apply List.ext_getElem
  · simp
  · intro position _ _
    simp [get?]

/-- The stored number of entries is the number of keys with a value. -/
theorem size_eq_card (map : SlotMap capacity α) :
    map.size = (Finset.univ.filter fun key => map.contains key).card := by
  calc map.size
      = map.slots.toList.countP Option.isSome := map.counted.trans Vector.countP_toList.symm
    _ = (List.finRange capacity).countP map.contains := by
        rw [toList_slots, List.countP_map]
        rfl
    _ = ((List.finRange capacity).filter map.contains).length := List.countP_eq_length_filter
    _ = ((List.finRange capacity).filter map.contains).toFinset.card :=
        (List.toFinset_card_of_nodup ((List.nodup_finRange _).filter _)).symm
    _ = (Finset.univ.filter fun key => map.contains key).card := by
        congr 1
        ext key
        simp

/-- A map lists as many entries as it has keys. -/
theorem length_toList (map : SlotMap capacity α) : map.toList.length = map.size := by
  unfold toList
  rw [List.length_filterMap_eq_countP, map.counted, ← Vector.countP_toList, toList_slots,
    List.countP_map]
  apply List.countP_congr
  intro key _
  simp

/-! ## The ordered map with the same contents -/

/-- The maps have the same values. -/
def Agrees (map : SlotMap capacity α) (ordered : OrderedMap capacity α) : Prop :=
  ∀ key, map.get? key = ordered[key]?

variable {map : SlotMap capacity α} {ordered : OrderedMap capacity α}

theorem agrees_empty : (∅ : SlotMap capacity α).Agrees ∅ := fun key => by
  rw [get?_empty, Std.ExtTreeMap.getElem?_empty]

/-- Maps with the same values list the same entries in the same order. -/
theorem Agrees.toList (agrees : map.Agrees ordered) : map.toList = ordered.toList := by
  have mine := map.pairwise_toList
  have below {first second : Fin capacity} (before : compare first second = .lt) :
      first < second := Nat.compare_eq_lt.mp before
  have theirs : ordered.toList.Pairwise fun earlier later => earlier.1 < later.1 :=
    Std.ExtTreeMap.ordered_keys_toList.imp below
  have distinct {entries : List (Fin capacity × α)}
      (sorted : entries.Pairwise fun earlier later => earlier.1 < later.1) : entries.Nodup :=
    sorted.imp fun before same => (same ▸ before).false
  apply List.Perm.eq_of_pairwise _ mine theirs
  · rw [List.perm_ext_iff_of_nodup (distinct mine) (distinct theirs)]
    rintro ⟨key, value⟩
    rw [mem_toList, Std.ExtTreeMap.mem_toList_iff_getElem?_eq_some, agrees key]
  · intro first second _ _ before after
    exact absurd before (lt_asymm after)

/-- Every use answers alike on maps with the same values and leaves them with the same values. -/
theorem Agrees.use (agrees : map.Agrees ordered) (use : MapUse capacity α) :
    (use.onSlots map).1 = (use.onOrdered ordered).1 ∧
      (use.onSlots map).2.Agrees (use.onOrdered ordered).2 := by
  cases use with
  | insert key value =>
      refine ⟨congrArg MapAnswer.held (agrees key), fun other => ?_⟩
      change (map.insert key value).get? other = (ordered.insert key value)[other]?
      rw [get?_insert, Std.ExtTreeMap.getElem?_insert, agrees other]
      simp only [Std.LawfulEqCmp.compare_eq_iff_eq]
  | erase key =>
      refine ⟨congrArg MapAnswer.held (agrees key), fun other => ?_⟩
      change (map.erase key).get? other = (ordered.erase key)[other]?
      rw [get?_erase, Std.ExtTreeMap.getElem?_erase, agrees other]
      simp only [Std.LawfulEqCmp.compare_eq_iff_eq]
  | getOrInsert key value =>
      have grown (other : Fin capacity) :
          (map.getOrInsert key value).2.get? other = (ordered.insertIfNew key value)[other]? := by
        change (map.insertIfNew key value).get? other = _
        rw [get?_insertIfNew, Std.ExtTreeMap.getElem?_insertIfNew, agrees key, agrees other]
        simp only [Std.LawfulEqCmp.compare_eq_iff_eq]
        by_cases same : key = other
        · subst same
          simp only [Std.ExtTreeMap.mem_iff_isSome_getElem?]
          cases ordered[key]? <;> simp
        · simp [same]
      refine ⟨?_, grown⟩
      have there := agrees key
      simp only [MapUse.onSlots, MapUse.onOrdered, SlotMap.getOrInsert]
      rw [← there]
      cases map.get? key <;> rfl
  | modify key change =>
      refine ⟨congrArg MapAnswer.held (agrees key), fun other => ?_⟩
      change (map.modify key change).get? other = (ordered.modify key change)[other]?
      rw [get?_modify, Std.ExtTreeMap.getElem?_modify, agrees key, agrees other]
      simp only [Std.LawfulEqCmp.compare_eq_iff_eq]
  | modifyAll change =>
      refine ⟨congrArg MapAnswer.visited agrees.toList, fun other => ?_⟩
      change (map.mapWithKey change).get? other = (ordered.map change)[other]?
      rw [get?_mapWithKey, Std.ExtTreeMap.getElem?_map, agrees other]
  | retain keep =>
      refine ⟨congrArg MapAnswer.visited agrees.toList, fun other => ?_⟩
      change (map.retain keep).get? other = (ordered.filterMap keep)[other]?
      rw [get?_retain, Std.ExtTreeMap.getElem?_filterMap', agrees other]
  | clear =>
      refine ⟨rfl, fun other => ?_⟩
      change map.clear.get? other = (∅ : OrderedMap capacity α)[other]?
      rw [get?_clear, Std.ExtTreeMap.getElem?_empty]

/-- The answers of an empty slot map to a series of uses, and what has become of it. -/
def used (uses : List (MapUse capacity α)) : List (MapAnswer capacity α) × SlotMap capacity α :=
  answersOf MapUse.onSlots uses ∅

/-- A slot map answers a series of uses like an ordered map and ends with the same contents. It
lists them in strictly ascending order, each once, and it stores their number. Two maps are equal by
the decision of their equality, which compares the stored numbers too, exactly when they have the
same contents, whatever they have been used for. -/
theorem used_as_ordered_map [DecidableEq α] (uses : List (MapUse capacity α)) :
    let map := (used uses).2
    let ordered := (answersOf MapUse.onOrdered uses (∅ : OrderedMap capacity α)).2
    (used uses).1 = (answersOf MapUse.onOrdered uses (∅ : OrderedMap capacity α)).1 ∧
      (∀ key, map.get? key = ordered[key]?) ∧
      map.size = ordered.size ∧
      map.size = (Finset.univ.filter fun key => map.contains key).card ∧
      map.toList = ordered.toList ∧
      (map.toList.Pairwise fun earlier later => earlier.1 < later.1) ∧
      (∀ key value, (key, value) ∈ map.toList ↔ map.get? key = some value) ∧
      ∀ others : List (MapUse capacity α),
        (map == (used others).2) = true ↔ ∀ key, map.get? key = (used others).2.get? key := by
  intro map ordered
  obtain ⟨answers, agrees⟩ := answersOf_alike (fun use _ _ agrees => Agrees.use agrees use) uses
    agrees_empty
  have listed : map.toList = ordered.toList := Agrees.toList agrees
  have sized : map.size = ordered.size := by
    rw [← map.length_toList, listed, Std.ExtTreeMap.length_toList]
  refine ⟨answers, agrees, sized, map.size_eq_card, listed, map.pairwise_toList,
    fun _ _ => mem_toList, fun others => ?_⟩
  rw [beq_iff_eq]
  exact ⟨fun same key => congrArg (get? · key) same, ext_get?⟩

end SlotMap

end WaveHazard.Index
