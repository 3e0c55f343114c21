import WaveHazard.Bits.FlagSet
import WaveHazard.Fault

/-! # Memory synchronization

What a memory access or a barrier synchronizes with: the kinds of memory it touches, the order it
asks for, and the invocations the order extends to.
-/

namespace WaveHazard.Machine

/-- The kinds of memory. -/
abbrev Storage.family : FlagFamily where
  title := "StorageClass"
  width := 8
  names := ["BUFFER", "GDS", "IMAGE", "SHARED", "VMEM_OUTPUT", "TASK_PAYLOAD", "SCRATCH",
    "VGPR_SPILL"]

/-- A set of kinds of memory. -/
abbrev Storage := FlagSet Storage.family

/-- The number of kinds of memory. -/
abbrev storageCount : Nat := 8

namespace Storage

/-- Buffers. -/
def buffer : Storage := .flag 0

/-- Global data share. -/
def gds : Storage := .flag 1

/-- Memory shared by a workgroup. -/
def shared : Storage := .flag 3

/-- The position of global data share among the kinds of memory. -/
def gdsIndex : Fin storageCount := 1

/-- The positions of the kinds of memory in the set. -/
def indices (storage : Storage) : List (Fin storageCount) :=
  (List.finRange storageCount).filter fun index => storage.has index

/-- The one kind of memory at a position. -/
def ofIndex (index : Nat) : Except Fault Storage :=
  if index < storageCount then .ok (.flag index) else .error (.storageOutsideTable index)

end Storage

/-- The orders a memory access or barrier can ask for. -/
abbrev Semantics.family : FlagFamily where
  title := "Semantics"
  width := 8
  names := ["ACQUIRE", "RELEASE", "VOLATILE", "PRIVATE", "CAN_REORDER", "ATOMIC", "RMW"]

/-- A set of orders. -/
abbrev Semantics := FlagSet Semantics.family

namespace Semantics

/-- Later accesses stay behind this one. -/
def acquire : Semantics := .flag 0

/-- Earlier accesses stay in front of this one. -/
def release : Semantics := .flag 1

/-- The access cannot be moved or removed. -/
def isVolatile : Semantics := .flag 2

/-- The memory is private to the invocation. -/
def isPrivate : Semantics := .flag 3

/-- The access is explicitly allowed to be moved. -/
def canReorder : Semantics := .flag 4

/-- Both acquire and release. -/
def acquireRelease : Semantics := acquire ||| release

end Semantics

/-- The invocations a synchronization extends to, from the fewest to the most. -/
inductive Scope where
  | invocation
  | subgroup
  | workgroup
  | queueFamily
  | device
deriving DecidableEq, Inhabited

namespace Scope

/-- All scopes, narrowest first. -/
def all : List Scope := [.invocation, .subgroup, .workgroup, .queueFamily, .device]

/-- The place of a scope among all of them, narrowest first. -/
def rank : Scope → Nat
  | invocation => 0
  | subgroup => 1
  | workgroup => 2
  | queueFamily => 3
  | device => 4

instance : LE Scope := ⟨fun narrow wide => narrow.rank ≤ wide.rank⟩

instance (narrow wide : Scope) : Decidable (narrow ≤ wide) :=
  inferInstanceAs (Decidable (narrow.rank ≤ wide.rank))

/-- The narrower of two scopes. -/
def narrower (left right : Scope) : Scope := if left ≤ right then left else right

/-- The name of the scope. -/
def text : Scope → String
  | invocation => "Invocation"
  | subgroup => "Subgroup"
  | workgroup => "Workgroup"
  | queueFamily => "QueueFamily"
  | device => "Device"

/-- The scope with the given name. -/
def ofText? (name : String) : Option Scope := all.find? fun scope => scope.text == name

end Scope

/-- What a memory access or barrier synchronizes with. -/
structure Sync where
  storage : Storage := ∅
  semantics : Semantics := ∅
  scope : Scope := .invocation
deriving DecidableEq, Inhabited

namespace Sync

/-- An access to some memory without any order. -/
def ofStorage (storage : Storage) : Sync := { storage }

/-- Whether the access may be moved past the accesses around it. One that touches no memory
always may, unless it is volatile or orders others. -/
def canReorder (sync : Sync) : Bool :=
  !sync.semantics.intersects Semantics.acquireRelease
    && (sync.storage.isEmpty || sync.semantics.contains Semantics.canReorder)
    && !sync.semantics.contains Semantics.isVolatile

/-- The three parts of the descriptor in words. -/
def text (sync : Sync) : String :=
  "storage:" ++ sync.storage.describe ++ " semantics:" ++ sync.semantics.describe
    ++ " scope:" ++ sync.scope.text

end Sync

end WaveHazard.Machine
