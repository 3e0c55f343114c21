/-! # Structured data

A tree of plain values in which programs are handed to other tools.
-/

namespace WaveHazard.Serial

/-- A plain value. -/
inductive Tree where
  | null
  | bool (value : Bool)
  | number (value : Nat)
  | text (value : String)
  | list (items : List Tree)
  | record (fields : List (String × Tree))
deriving Inhabited

/-- A value under the name of its variant. -/
def Tree.variant (name : String) (value : Tree) : Tree := .record [(name, value)]

end WaveHazard.Serial
