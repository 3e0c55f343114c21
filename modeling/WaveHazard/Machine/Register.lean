import WaveHazard.Fault

/-! # Registers

A register is named by a number: scalar and special registers come first, vector registers start
at 256. The register file has 512 slots of one dword each; a register of several dwords occupies
consecutive slots. A number names a register whether or not the file has a slot for it, and
`Register.advance` is where a number becomes a slot.
-/

namespace WaveHazard.Machine

/-- The number of slots of the register file. -/
abbrev slotCount : Nat := 512

/-- A slot of the register file. -/
abbrev Slot := Fin slotCount

/-- A register by its number, a word of 16 bits. -/
structure Register where
  number : Nat
deriving DecidableEq, Inhabited

namespace Register

/-- The condition code register. -/
def vcc : Register := ⟨106⟩

/-- The memory register. -/
def m0 : Register := ⟨124⟩

/-- The register that reads as nothing. -/
def null : Register := ⟨125⟩

/-- The mask of active lanes. -/
def exec : Register := ⟨126⟩

/-- The first vector register. -/
def firstVector : Register := ⟨256⟩

/-- The scalar register `n`. -/
def scalar (n : Nat) : Register := ⟨n⟩

/-- The vector register `n`. -/
def vector (n : Nat) : Except Fault Register :=
  if firstVector.number + n < 65536 then .ok ⟨firstVector.number + n⟩ else .error .overflow

/-- Whether the register is a vector register. -/
def isVector (register : Register) : Bool := firstVector.number ≤ register.number

/-- The slot `n` dwords after the register. -/
def advance (register : Register) (n : Nat) : Except Fault Slot :=
  let number := register.number + n
  if number < 65536 then
    if inside : number < slotCount then .ok ⟨number, inside⟩
    else .error (.registerOutsideFile number)
  else .error .overflow

/-- The name of the register. -/
def text (register : Register) : String :=
  if register = vcc then "vcc"
  else if register = m0 then "m0"
  else if register = null then "null"
  else if register = exec then "exec"
  else if register.isVector then s!"v{register.number - firstVector.number}"
  else s!"s{register.number}"

/-- A register is advanced as long as it stays in the file. -/
theorem advance_of_lt {register : Register} {n : Nat} (inside : register.number + n < slotCount) :
    register.advance n = .ok ⟨register.number + n, inside⟩ := by
  have word : register.number + n < 65536 := Nat.lt_trans inside (by decide)
  unfold advance
  rw [if_pos word, dif_pos inside]

end Register

/-- The register that starts at a slot. -/
def Slot.register (slot : Slot) : Register := ⟨slot.val⟩

/-- The two halves of the register file. -/
inductive Bank where
  | scalar
  | vector
deriving DecidableEq, Inhabited

/-- The bank and the size in dwords of a register operand.

A linear register is live in every lane whatever the mask of active lanes is, and so follows the
linear control flow. Scalar registers are always linear; a vector register is when it is marked. -/
structure RegisterClass where
  bank : Bank
  /-- The size in dwords, a byte. -/
  size : Nat
  linearVector : Bool := false
deriving DecidableEq, Inhabited

namespace RegisterClass

/-- A scalar class of the given size. -/
def scalar (size : Nat) : RegisterClass := { bank := .scalar, size }

/-- A vector class of the given size. -/
def vector (size : Nat) : RegisterClass := { bank := .vector, size }

/-- The linear form of a vector class; scalar classes stay as they are. -/
def asLinear (cls : RegisterClass) : RegisterClass :=
  { cls with linearVector := cls.bank == .vector }

/-- Whether registers of the class follow the linear control flow. -/
def isLinear (cls : RegisterClass) : Bool := cls.bank == .scalar || cls.linearVector

/-- The size in bytes. -/
def bytes (cls : RegisterClass) : Nat := cls.size * 4

/-- The mark of the bank followed by the size. -/
def text (cls : RegisterClass) : String :=
  let mark := match cls.bank with
    | .scalar => "s"
    | .vector => if cls.linearVector then "lv" else "v"
  s!"{mark}{cls.size}"

end RegisterClass

/-- The slots of `size` dwords from a register on, each on its own: a slot outside of the register
file is a fault only for those who look at it. -/
def slotsFrom (register : Register) (size : Nat) : List (Except Fault Slot) :=
  (List.range size).map register.advance

/-- All the slots of a list, or the first fault among them. -/
def sequenceSlots (slots : List (Except Fault Slot)) : Except Fault (List Slot) :=
  slots.mapM id

end WaveHazard.Machine
