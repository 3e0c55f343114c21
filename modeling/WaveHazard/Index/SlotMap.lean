import WaveHazard.Fault

/-! # Slot maps

A finite map over a small key space that is known up front, with one slot for every key below the
capacity. Look-up is an access to the slot and the entries come in ascending order of their keys.
The number of entries is stored beside the slots: an operation that fills or empties a slot changes
it, so that nobody has to count them.

Keys are `Fin capacity`, so every operation is total; `SlotMap.slot` is the one place where a
number from outside becomes a key.
-/

namespace WaveHazard.Index

/-- A map from the keys below `capacity` to values of `α`. -/
@[ext] structure SlotMap (capacity : Nat) (α : Type) where
  slots : Vector (Option α) capacity
  /-- The number of entries. -/
  size : Nat
  counted : size = slots.countP Option.isSome
deriving DecidableEq

namespace SlotMap

variable {capacity : Nat} {α β : Type}

/-- The slot of a number; a number at or above the capacity has none. -/
def slot (capacity key : Nat) : Except Fault (Fin capacity) :=
  if inside : key < capacity then .ok ⟨key, inside⟩
  else .error (.keyOutsideCapacity key capacity)

/-! ## Counting entries -/

theorem countP_none : (Vector.replicate capacity (none : Option α)).countP Option.isSome = 0 :=
  Vector.countP_eq_zero.mpr fun held member => by
    rw [(Vector.mem_replicate.mp member).2]
    exact Bool.false_ne_true

/-- Filling a slot adds an entry unless there was one. -/
theorem countP_set_some (slots : Vector (Option α) capacity) (key : Fin capacity) (value : α) :
    (slots.set key (some value)).countP Option.isSome =
      if slots[key].isSome then slots.countP Option.isSome
      else slots.countP Option.isSome + 1 := by
  rw [Vector.countP_set, Fin.getElem_fin]
  split
  · rename_i filled
    have entry : 0 < slots.countP Option.isSome :=
      Vector.countP_pos_iff.mpr ⟨_, Vector.getElem_mem key.isLt, filled⟩
    exact Nat.sub_add_cancel entry
  · rfl

/-- Emptying a slot takes an entry away if there was one. -/
theorem countP_set_none (slots : Vector (Option α) capacity) (key : Fin capacity) :
    (slots.set key none).countP Option.isSome =
      if slots[key].isSome then slots.countP Option.isSome - 1
      else slots.countP Option.isSome := by
  rw [Vector.countP_set, Fin.getElem_fin]
  split <;> rfl

/-- The number of entries depends only on which slots are filled. -/
theorem countP_congr {left : Vector (Option α) capacity} {right : Vector (Option β) capacity}
    (same : ∀ key : Fin capacity, left[key].isSome = right[key].isSome) :
    left.countP Option.isSome = right.countP Option.isSome := by
  have filled : left.map Option.isSome = right.map Option.isSome := by
    apply Vector.ext
    intro position inside
    rw [Vector.getElem_map, Vector.getElem_map]
    exact same ⟨position, inside⟩
  calc left.countP Option.isSome
      = (left.map Option.isSome).countP id := by rw [Vector.countP_map]; rfl
    _ = (right.map Option.isSome).countP id := congrArg _ filled
    _ = right.countP Option.isSome := by rw [Vector.countP_map]; rfl

/-! ## Operations -/

/-- The map without entries. -/
def empty : SlotMap capacity α where
  slots := Vector.replicate capacity none
  size := 0
  counted := countP_none.symm

instance : EmptyCollection (SlotMap capacity α) := ⟨empty⟩

instance : Inhabited (SlotMap capacity α) := ⟨empty⟩

/-- The value of a key. -/
def get? (map : SlotMap capacity α) (key : Fin capacity) : Option α := map.slots[key]

/-- Whether a key has a value. -/
def contains (map : SlotMap capacity α) (key : Fin capacity) : Bool := (map.get? key).isSome

/-- Whether the map has no entries. -/
def isEmpty (map : SlotMap capacity α) : Bool := map.size == 0

/-- The map whose values are given key by key. -/
def ofFn (value : Fin capacity → Option α) : SlotMap capacity α where
  slots := Vector.ofFn value
  size := (Vector.ofFn value).countP Option.isSome
  counted := rfl

/-- The map with `value` stored at `key`. -/
def insert (map : SlotMap capacity α) (key : Fin capacity) (value : α) : SlotMap capacity α where
  slots := map.slots.set key (some value)
  size := if map.contains key then map.size else map.size + 1
  counted := by
    rw [countP_set_some, ← map.counted]
    rfl

/-- The map with `value` stored at `key`, and the value that was there. -/
def exchange (map : SlotMap capacity α) (key : Fin capacity) (value : α) :
    Option α × SlotMap capacity α :=
  (map.get? key, map.insert key value)

/-- The map without the entry of `key`. -/
def erase (map : SlotMap capacity α) (key : Fin capacity) : SlotMap capacity α where
  slots := map.slots.set key none
  size := if map.contains key then map.size - 1 else map.size
  counted := by
    rw [countP_set_none, ← map.counted]
    rfl

/-- The map without the entry of `key`, and the value that was there. -/
def extract (map : SlotMap capacity α) (key : Fin capacity) : Option α × SlotMap capacity α :=
  (map.get? key, map.erase key)

/-- The value of a key and whether it is new, and the map with that value: it is `value` unless
there is an entry already. -/
def getOrInsert (map : SlotMap capacity α) (key : Fin capacity) (value : α) :
    (α × Bool) × SlotMap capacity α :=
  match map.get? key with
  | some held => ((held, false), map)
  | none => ((value, true), map.insert key value)

/-- The map with `value` stored at `key` unless there is an entry already. -/
def insertIfNew (map : SlotMap capacity α) (key : Fin capacity) (value : α) :
    SlotMap capacity α :=
  (map.getOrInsert key value).2

/-- The map with the value of one key recomputed from what was there. -/
def alter (map : SlotMap capacity α) (key : Fin capacity) (change : Option α → Option α) :
    SlotMap capacity α :=
  match change (map.get? key) with
  | some value => map.insert key value
  | none => map.erase key

/-- The map with the value of `key`, if it has one, changed in place. -/
def modify (map : SlotMap capacity α) (key : Fin capacity) (change : α → α) :
    SlotMap capacity α where
  slots := map.slots.set key ((map.get? key).map change)
  size := map.size
  counted := map.counted.trans <| countP_congr fun other => by
    by_cases same : key = other
    · simp [get?, same]
    · simp [get?, Fin.val_ne_of_ne same]

/-- The map with every value changed in place. -/
def mapWithKey (map : SlotMap capacity α) (change : Fin capacity → α → β) :
    SlotMap capacity β where
  slots := Vector.ofFn fun key => (map.get? key).map (change key)
  size := map.size
  counted := map.counted.trans <| countP_congr fun key => by simp [get?]

/-- The map with every value changed in place, whatever its key. -/
def map (map : SlotMap capacity α) (change : α → β) : SlotMap capacity β :=
  map.mapWithKey fun _ => change

/-- The map in which every value is changed or dropped; what is kept is counted on the way. -/
def retain (map : SlotMap capacity α) (keep : Fin capacity → α → Option β) :
    SlotMap capacity β :=
  ofFn fun key => (map.get? key).bind (keep key)

/-- The map after all its slots have been emptied. -/
def clear (map : SlotMap capacity α) : SlotMap capacity α where
  slots := map.slots.map fun _ => none
  size := 0
  counted := by
    rw [Vector.map_const']
    exact countP_none.symm

/-- The entries in ascending order of their keys. -/
def toList (map : SlotMap capacity α) : List (Fin capacity × α) :=
  (List.finRange capacity).filterMap fun key => (map.get? key).map fun value => (key, value)

/-! ## Look-up -/

@[simp] theorem get?_empty (key : Fin capacity) :
    (∅ : SlotMap capacity α).get? key = none := by
  show (Vector.replicate capacity none)[key] = none
  simp

@[simp] theorem get?_ofFn (value : Fin capacity → Option α) (key : Fin capacity) :
    (ofFn value).get? key = value key := by
  simp [ofFn, get?]

/-- A value is found under the key it was inserted with, and other keys keep theirs. -/
theorem get?_insert (map : SlotMap capacity α) (key other : Fin capacity) (value : α) :
    (map.insert key value).get? other = if key = other then some value else map.get? other := by
  simp [insert, get?, Vector.getElem_set, Fin.ext_iff]

/-- No value is found under a key that was erased, and other keys keep theirs. -/
theorem get?_erase (map : SlotMap capacity α) (key other : Fin capacity) :
    (map.erase key).get? other = if key = other then none else map.get? other := by
  simp [erase, get?, Vector.getElem_set, Fin.ext_iff]

/-- The value of a key is altered, missing or not, and other keys keep theirs. -/
theorem get?_alter (map : SlotMap capacity α) (key other : Fin capacity)
    (change : Option α → Option α) :
    (map.alter key change).get? other =
      if key = other then change (map.get? key) else map.get? other := by
  unfold alter
  split
  · rename_i changed
    rw [get?_insert, changed]
  · rename_i changed
    rw [get?_erase, changed]

/-- A value is inserted only where there is none. -/
theorem get?_insertIfNew (map : SlotMap capacity α) (key other : Fin capacity) (value : α) :
    (map.insertIfNew key value).get? other =
      if key = other then some ((map.get? key).getD value) else map.get? other := by
  unfold insertIfNew getOrInsert
  split
  · rename_i held found
    split
    · rename_i same
      rw [← same, found]
      rfl
    · rfl
  · rename_i free
    rw [get?_insert, free]
    rfl

/-- The value of a key is changed if there is one. -/
theorem get?_modify (map : SlotMap capacity α) (key other : Fin capacity) (change : α → α) :
    (map.modify key change).get? other =
      if key = other then (map.get? key).map change else map.get? other := by
  simp [modify, get?, Vector.getElem_set, Fin.ext_iff]

@[simp] theorem get?_mapWithKey (source : SlotMap capacity α) (change : Fin capacity → α → β)
    (key : Fin capacity) :
    (source.mapWithKey change).get? key = (source.get? key).map (change key) := by
  simp [mapWithKey, get?]

@[simp] theorem get?_map (source : SlotMap capacity α) (change : α → β) (key : Fin capacity) :
    (source.map change).get? key = (source.get? key).map change :=
  get?_mapWithKey source (fun _ => change) key

@[simp] theorem get?_retain (map : SlotMap capacity α) (keep : Fin capacity → α → Option β)
    (key : Fin capacity) : (map.retain keep).get? key = (map.get? key).bind (keep key) := by
  simp [retain]

@[simp] theorem get?_clear (map : SlotMap capacity α) (key : Fin capacity) :
    map.clear.get? key = none := by
  simp [clear, get?]

/-- The entries are the keys with their values. -/
theorem mem_toList {map : SlotMap capacity α} {key : Fin capacity} {value : α} :
    (key, value) ∈ map.toList ↔ map.get? key = some value := by
  simp only [toList, List.mem_filterMap, List.mem_finRange, true_and, Option.map_eq_some_iff,
    Prod.mk.injEq]
  constructor
  · rintro ⟨_, _, found, rfl, rfl⟩
    exact found
  · intro found
    exact ⟨key, value, found, rfl, rfl⟩

/-- Two maps with the same values are equal: the number of entries is theirs as well. -/
theorem ext_get? {left right : SlotMap capacity α}
    (same : ∀ key, left.get? key = right.get? key) : left = right := by
  have slots : left.slots = right.slots := by
    apply Vector.ext
    intro position inside
    exact same ⟨position, inside⟩
  apply SlotMap.ext slots
  rw [left.counted, right.counted, slots]

end SlotMap

end WaveHazard.Index
