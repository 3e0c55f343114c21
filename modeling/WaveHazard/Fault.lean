/-! # Faults

A fault is a broken contract: a number that left its machine word, a register outside of the
register file, an instruction whose payload does not fit its opcode. A computation that meets one
is given up. Faults are kept apart from diagnostics, which report what is wrong with the input of
a pass and are part of normal operation.

Some causes are described to the user and some are not: `Fault.message?` is the description.
-/

namespace WaveHazard

/-- The cause for which a computation was given up. Instructions, opcodes and values are carried
as their text. -/
inductive Fault where
  /-- Arithmetic left the machine word it is carried out in. -/
  | overflow
  /-- An element, block or flag that does not exist was asked for. -/
  | missingElement
  /-- A key range was given an end before its start. -/
  | reversedRange
  /-- A slot map was asked for a key that has no slot. -/
  | keyOutsideCapacity (key capacity : Nat)
  /-- A storage class was asked for by a position that has none. -/
  | storageOutsideTable (position : Nat)
  /-- A register slot past the end of the register file. -/
  | registerOutsideFile (number : Nat)
  /-- An immediate was given to an instruction that has none. -/
  | withoutImmediate (opcode : String)
  /-- Synchronization was given to an instruction that has none. -/
  | withoutSync (opcode : String)
  /-- A set that should hold exactly one event holds none or several. -/
  | notSingleEvent (events : String)
  /-- A threshold is too large for its field in the packed immediate. -/
  | unencodableThreshold (field : String) (threshold : Nat)
  /-- A wait for stores on a generation without a store counter. -/
  | withoutStoreCounter (generation : String)
  /-- An export instruction without an export payload. -/
  | exportWithoutPayload (instruction : String)
  /-- An export enables a channel for which it has no operand. -/
  | exportWithoutOperand (position : Nat) (instruction : String)
  /-- A direct load from local memory that writes nothing. -/
  | directLoadWithoutDestination (instruction : String)
  /-- A message with a reply that has nowhere to write it. -/
  | messageWithoutDestination (instruction : String)
  /-- The out-of-order treatment of flat loads on a generation that keeps them in order. -/
  | orderedFlatLoad
  /-- The analysis visited one block more often than it is allowed to. -/
  | visitLimit (block visits : Nat)
  /-- A number was found where a flag is read. -/
  | expectedFlag (value : String)
  /-- A flag was found where a number is read. -/
  | expectedNumber (value : String)
deriving DecidableEq, Inhabited

namespace Fault

/-- The description of a fault, if its cause is one that is described. -/
def message? : Fault → Option String
  | overflow | missingElement | orderedFlatLoad => none
  | reversedRange => some "start must be less than or equal to end"
  | keyOutsideCapacity key capacity =>
      some s!"key {key} outside of slot map capacity {capacity}"
  | storageOutsideTable position => some s!"storage index {position} out of range"
  | registerOutsideFile number => some s!"register {number} is outside of the register file"
  | withoutImmediate opcode => some s!"{opcode} has no immediate"
  | withoutSync opcode => some s!"{opcode} has no memory synchronization info"
  | notSingleEvent events => some s!"expected a single event, got {events}"
  | unencodableThreshold field threshold => some s!"{field} {threshold} cannot be encoded"
  | withoutStoreCounter generation => some s!"vscnt does not exist on {generation}"
  | exportWithoutPayload instruction => some s!"export without export info: {instruction}"
  | exportWithoutOperand position instruction =>
      some s!"export enables missing operand {position}: {instruction}"
  | directLoadWithoutDestination instruction =>
      some s!"LDS direct load without destination: {instruction}"
  | messageWithoutDestination instruction =>
      some s!"message with return without destination: {instruction}"
  | visitLimit block visits =>
      some s!"BB{block} visited {visits} times without reaching a fixpoint"
  | expectedFlag value => some s!"Expected bool, got {value}"
  | expectedNumber value => some s!"Expected number, got {value}"

end Fault

end WaveHazard
