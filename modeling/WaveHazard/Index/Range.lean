import WaveHazard.Fault
import WaveHazard.Index.Key

/-! # Ranges of keys

A range holds the keys from its start, inclusive, to its stop, exclusive.
-/

namespace WaveHazard.Index

/-- The keys from `start` up to but not including `stop`. -/
structure KeyRange (width : Nat) where
  start : Key width
  stop : Key width
  ordered : start.position ≤ stop.position

namespace KeyRange

variable {width : Nat}

/-- The range between two keys; a stop before the start is a fault. -/
def between (start stop : Key width) : Except Fault (KeyRange width) :=
  if ordered : start.position ≤ stop.position then .ok ⟨start, stop, ordered⟩
  else .error .reversedRange

/-- The number of keys in the range. -/
def size (range : KeyRange width) : Nat := range.stop.position - range.start.position

/-- Whether the range has no keys. -/
def isEmpty (range : KeyRange width) : Bool := range.stop.position ≤ range.start.position

/-- Whether a key lies in the range. -/
def contains (range : KeyRange width) (key : Key width) : Bool :=
  range.start.position ≤ key.position && key.position < range.stop.position

/-- The keys of the range in ascending order. -/
def toList (range : KeyRange width) : List (Key width) :=
  (List.range' range.start.position range.size).map Key.ofPosition

theorem length_toList (range : KeyRange width) : range.toList.length = range.size := by
  simp [toList]

end KeyRange

end WaveHazard.Index
