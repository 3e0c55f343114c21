/-! # Keys

A key is a position stored in a word of fixed width. A position too large for the word wraps
around, so keys and positions agree only below `1 <<< width`.
-/

namespace WaveHazard.Index

/-- A position stored in a word of `width` bits. -/
abbrev Key (width : Nat) := BitVec width

namespace Key

variable {width : Nat}

/-- The key of a position, which wraps around at the end of the word. -/
def ofPosition (position : Nat) : Key width := BitVec.ofNat width position

/-- The position a key stands for. -/
def position (key : Key width) : Nat := key.toNat

end Key

end WaveHazard.Index
