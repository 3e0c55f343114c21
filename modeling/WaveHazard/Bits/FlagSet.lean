import WaveHazard.Text.Number

/-! # Sets of flags

A family of flags is a word in which the low bits have names. A set keeps every bit it is given,
also those without a name, and is written as its names in order followed by the nameless bits.
-/

namespace WaveHazard

/-- A word whose low bits are named flags. -/
structure FlagFamily where
  /-- What a set of these flags is called in text. -/
  title : String
  width : Nat
  /-- The names of the flags, lowest bit first. -/
  names : List String

/-- A set of flags of one family. -/
@[ext] structure FlagSet (family : FlagFamily) where
  bits : BitVec family.width
deriving DecidableEq

namespace FlagSet

variable {family : FlagFamily}

/-- The set with the given bits; bits outside of the word are dropped. -/
def ofNat (n : Nat) : FlagSet family := ⟨BitVec.ofNat _ n⟩

/-- The bits of the set as a number. -/
def toNat (set : FlagSet family) : Nat := set.bits.toNat

/-- The set without flags. -/
def empty : FlagSet family := ⟨BitVec.zero _⟩

instance : EmptyCollection (FlagSet family) := ⟨empty⟩

instance : Inhabited (FlagSet family) := ⟨empty⟩

/-- The set of the one flag at a position. -/
def flag (position : Nat) : FlagSet family := ⟨BitVec.twoPow _ position⟩

/-- The set of all named flags. -/
def all : FlagSet family := ofNat (1 <<< family.names.length - 1)

/-- Whether the flag at a position is in the set. -/
def has (set : FlagSet family) (position : Nat) : Bool := set.bits.getLsbD position

instance : OrOp (FlagSet family) := ⟨fun left right => ⟨left.bits ||| right.bits⟩⟩

instance : AndOp (FlagSet family) := ⟨fun left right => ⟨left.bits &&& right.bits⟩⟩

/-- The flags of the first set that are not in the second. -/
def diff (left right : FlagSet family) : FlagSet family := ⟨left.bits &&& ~~~right.bits⟩

/-- The named flags that are not in the set. -/
def complement (set : FlagSet family) : FlagSet family := ⟨~~~set.bits⟩ &&& all

/-- Whether the set has no flags at all. -/
def isEmpty (set : FlagSet family) : Bool := set.bits == BitVec.zero _

/-- Whether the two sets share a flag. -/
def intersects (left right : FlagSet family) : Bool := !(left &&& right).isEmpty

/-- Whether every flag of the second set is in the first. -/
def contains (left right : FlagSet family) : Bool := left &&& right == right

/-- The bits of the set that have no name. -/
def nameless (set : FlagSet family) : Nat :=
  set.toNat >>> family.names.length <<< family.names.length

/-- The names of the flags in the set, lowest first, and then the nameless bits. -/
def parts (set : FlagSet family) : List String :=
  let named := family.names.zipIdx.filterMap fun (name, position) =>
    if set.has position then some name else none
  if set.nameless = 0 then named else named ++ [Text.hex set.nameless]

/-- The flags of the set separated by bars; nothing for the empty set. -/
def barred (set : FlagSet family) : String := String.intercalate " | " set.parts

/-- The set under the title of its family. -/
def describe (set : FlagSet family) : String :=
  if set.isEmpty then family.title ++ "(0x0)" else family.title ++ "(" ++ set.barred ++ ")"

@[simp] theorem has_empty (position : Nat) : (∅ : FlagSet family).has position = false := by
  show (BitVec.zero family.width).getLsbD position = false
  simp

@[simp] theorem has_or (left right : FlagSet family) (position : Nat) :
    (left ||| right).has position = (left.has position || right.has position) := by
  show (left.bits ||| right.bits).getLsbD position = _
  simp [has]

@[simp] theorem has_and (left right : FlagSet family) (position : Nat) :
    (left &&& right).has position = (left.has position && right.has position) := by
  show (left.bits &&& right.bits).getLsbD position = _
  simp [has]

/-- No flag stands beyond the width of the family. -/
theorem has_of_width_le (set : FlagSet family) {position : Nat} (beyond : family.width ≤ position) :
    set.has position = false :=
  BitVec.getLsbD_of_ge _ _ beyond

@[simp] theorem has_diff (left right : FlagSet family) (position : Nat) :
    (left.diff right).has position = (left.has position && !right.has position) := by
  by_cases inside : position < family.width
  · simp [has, diff, inside]
  · simp [has_of_width_le _ (Nat.le_of_not_lt inside)]

@[simp] theorem has_flag (flagged position : Nat) :
    (flag flagged : FlagSet family).has position =
      (decide (position < family.width) && decide (flagged = position)) := by
  simp [has, flag, BitVec.getLsbD_twoPow]
  grind

/-- Two sets with the same flags are equal. -/
theorem ext_has {left right : FlagSet family}
    (same : ∀ position, left.has position = right.has position) : left = right := by
  apply FlagSet.ext
  apply BitVec.eq_of_getLsbD_eq
  intro position _
  exact same position

end FlagSet

end WaveHazard
