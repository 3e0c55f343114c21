/-! # Numbers in text

Immediates and unknown flags are written in lower-case hexadecimal; signed numbers are read in
decimal from options.
-/

namespace WaveHazard.Text

/-- A number in lower-case hexadecimal, with its mark. -/
def hex (n : Nat) : String := "0x" ++ String.ofList (Nat.toDigits 16 n)

/-- The value of a run of decimal digits, `none` when a character is no digit. -/
def decimalValue? (digits : List Char) : Option Nat :=
  digits.foldlM (fun value digit =>
    if '0' ≤ digit ∧ digit ≤ '9' then some (value * 10 + (digit.toNat - '0'.toNat)) else none) 0

/-- The magnitude of a nonempty run of decimal digits. -/
def magnitude? : List Char → Option Nat
  | [] => none
  | digits => decimalValue? digits

/-- Read a signed number of 64 bits: an optional sign and at least one decimal digit. Text out of
the range of the word is refused. -/
def signed64? (text : String) : Option Int :=
  let inRange (value : Int) : Option Int :=
    if -0x8000000000000000 ≤ value ∧ value < 0x8000000000000000 then some value else none
  match text.toList with
  | '-' :: digits => (magnitude? digits).bind fun n => inRange (-(n : Int))
  | '+' :: digits => (magnitude? digits).bind fun n => inRange n
  | digits => (magnitude? digits).bind fun n => inRange n

end WaveHazard.Text
