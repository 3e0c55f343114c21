import WaveHazard.Fault

/-! # Field widths

How many bits a field needs. Numbers are words of 64 bits: where a step would leave the word the
result is a fault.
-/

namespace WaveHazard.Bits

/-- The number of binary digits of `n`; zero has none. -/
def binaryDigits (n : Nat) : Nat :=
  if n = 0 then 0 else binaryDigits (n / 2) + 1

/-- The width of the narrowest field that holds `value`. -/
def fieldWidth (value : Nat) : Nat := max (binaryDigits value) 1

/-- The number of bits needed to tell `count` things apart, and at least one. -/
def bitsNeeded (count : Nat) : Except Fault Nat :=
  if count = 0 then .error .overflow else .ok (fieldWidth (count - 1))

/-- Whether `value` can be stored in an unsigned field of `width` bits. The test asks for the bits
that tell `value + 1` things apart, so the largest word has no answer. -/
def fitsInBits (value width : Nat) : Except Fault Bool :=
  if value + 1 < 0x10000000000000000 then (bitsNeeded (value + 1)).map (decide <| · ≤ width)
  else .error .overflow

end WaveHazard.Bits
