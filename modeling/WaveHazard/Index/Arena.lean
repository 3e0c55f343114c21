import WaveHazard.Index.Range

/-! # Arenas

An arena hands out keys for the values put into it, in the order of insertion. Values are never
removed. The keys wrap around with their word, so an arena that outgrows its keys hands out the
first ones again.
-/

namespace WaveHazard.Index

/-- Values addressed by keys of `width` bits in the order of insertion. -/
structure Arena (width : Nat) (α : Type) where
  values : Array α := #[]
deriving DecidableEq

namespace Arena

variable {width : Nat} {α : Type}

/-- An arena of `size` values, each made from its key. -/
def ofFn (size : Nat) (value : Key width → α) : Arena width α :=
  ⟨(Array.range size).map fun position => value (.ofPosition position)⟩

/-- The number of values. -/
def size (arena : Arena width α) : Nat := arena.values.size

/-- Whether the arena holds no values. -/
def isEmpty (arena : Arena width α) : Bool := arena.values.isEmpty

/-- The key the next value will be given. -/
def nextKey (arena : Arena width α) : Key width := .ofPosition arena.size

/-- The arena with one more value, and the key of that value. -/
def push (arena : Arena width α) (value : α) : Arena width α × Key width :=
  (⟨arena.values.push value⟩, arena.nextKey)

/-- The value of a key, if it has been handed out. -/
def get? (arena : Arena width α) (key : Key width) : Option α := arena.values[key.position]?

/-- The value of a key that is expected to have been handed out. -/
def get (arena : Arena width α) (key : Key width) : Except Fault α :=
  match arena.get? key with
  | some value => .ok value
  | none => .error .missingElement

/-- The arena with the value of a key replaced; nothing happens when the key has none. -/
def set (arena : Arena width α) (key : Key width) (value : α) : Arena width α :=
  ⟨arena.values.setIfInBounds key.position value⟩

/-- The values with their keys, in the order of insertion. -/
def entries (arena : Arena width α) : List (Key width × α) :=
  arena.values.toList.zipIdx.map fun (value, position) => (.ofPosition position, value)

/-- The keys in the order of insertion. -/
def keys (arena : Arena width α) : List (Key width) :=
  (List.range arena.size).map Key.ofPosition

/-- The range from the first key to the next one. -/
def range (arena : Arena width α) : Except Fault (KeyRange width) :=
  KeyRange.between (.ofPosition 0) arena.nextKey

end Arena

end WaveHazard.Index
