/-! # Wait requirements

Asynchronous operations are counted by a handful of hardware counters. A requirement says, for
every counter, how many operations may at most be outstanding, or nothing when the counter does
not matter. `Requirement.get` is the view through which the operations are described: each of them
is given counter by counter.
-/

namespace WaveHazard.Wait

/-- The hardware counters an instruction can wait on. -/
inductive Counter where
  /-- Exports and register locks. -/
  | exp
  /-- Local and global data share, scalar memory and messages; on GFX12 only data share. -/
  | lgkm
  /-- Vector memory loads. -/
  | vm
  /-- Vector memory stores. -/
  | vs
  /-- Sampler loads, from GFX12 on. -/
  | sample
  /-- Ray-tracing loads, from GFX12 on. -/
  | bvh
  /-- Scalar memory and messages, from GFX12 on. -/
  | km
deriving DecidableEq, Inhabited

namespace Counter

/-- All counters in order. -/
def all : List Counter := [.exp, .lgkm, .vm, .vs, .sample, .bvh, .km]

/-- The place of a counter among all of them. -/
def index : Counter → Nat
  | exp => 0
  | lgkm => 1
  | vm => 2
  | vs => 3
  | sample => 4
  | bvh => 5
  | km => 6

/-- The name of the counter. -/
def name : Counter → String
  | exp => "exp"
  | lgkm => "lgkm"
  | vm => "vm"
  | vs => "vs"
  | sample => "sample"
  | bvh => "bvh"
  | km => "km"

/-- The counter at a place. -/
def ofIndex? (index : Nat) : Option Counter := all[index]?

theorem mem_all (counter : Counter) : counter ∈ all := by cases counter <;> decide

/-- Every counter is found under its own index. -/
theorem ofIndex?_index (counter : Counter) : ofIndex? counter.index = some counter := by
  cases counter <;> rfl

theorem index_injective {left right : Counter} (same : left.index = right.index) :
    left = right := by
  cases left <;> cases right <;> first | rfl | exact absurd same (by decide)

end Counter

/-- The number of operations that may be outstanding on a counter; `none` puts no bound on it. -/
abbrev Threshold := Option Nat

namespace Threshold

/-- The value that stands for "no bound" where thresholds are bytes. -/
def unset : Nat := 255

/-- The threshold as a byte. -/
def toByte (threshold : Threshold) : Nat := threshold.getD unset

/-- The threshold of a byte. -/
def ofByte (byte : Nat) : Threshold := if byte < unset then some byte else none

/-- The stricter of two thresholds. -/
def stricter : Threshold → Threshold → Threshold
  | none, right => right
  | left, none => left
  | some left, some right => some (min left right)

/-- Whether the first threshold is strictly stricter than the second. -/
def isStricter : Threshold → Threshold → Bool
  | none, _ => false
  | some _, none => true
  | some left, some right => left < right

/-- Whether waiting for the first threshold covers the second: it is a bound, and at most the
second one. -/
def covers : Threshold → Threshold → Bool
  | none, _ => false
  | some _, none => true
  | some left, some right => left ≤ right

/-- The threshold after one more operation, up to the largest one that can be waited for. Where
there was no bound the result is the largest. -/
def increment (threshold : Threshold) (largest : Nat) : Threshold :=
  match threshold with
  | none => some largest
  | some n => some (min (n + 1) largest)

end Threshold

/-- For every counter, how many operations may at most be outstanding. -/
@[ext] structure Requirement where
  exp : Threshold := none
  lgkm : Threshold := none
  vm : Threshold := none
  vs : Threshold := none
  sample : Threshold := none
  bvh : Threshold := none
  km : Threshold := none
deriving DecidableEq, Inhabited

namespace Requirement

/-- The threshold of a counter. -/
def get (wait : Requirement) : Counter → Threshold
  | .exp => wait.exp
  | .lgkm => wait.lgkm
  | .vm => wait.vm
  | .vs => wait.vs
  | .sample => wait.sample
  | .bvh => wait.bvh
  | .km => wait.km

/-- The requirement with the given threshold for every counter. -/
def ofFn (threshold : Counter → Threshold) : Requirement where
  exp := threshold .exp
  lgkm := threshold .lgkm
  vm := threshold .vm
  vs := threshold .vs
  sample := threshold .sample
  bvh := threshold .bvh
  km := threshold .km

@[simp] theorem get_ofFn (threshold : Counter → Threshold) (counter : Counter) :
    (ofFn threshold).get counter = threshold counter := by
  cases counter <;> rfl

/-- Two requirements with the same thresholds are equal. -/
theorem ext_get {left right : Requirement}
    (same : ∀ counter, left.get counter = right.get counter) : left = right :=
  Requirement.ext (same .exp) (same .lgkm) (same .vm) (same .vs) (same .sample) (same .bvh)
    (same .km)

/-- The requirement that asks for nothing. -/
def empty : Requirement := {}

instance : EmptyCollection Requirement := ⟨empty⟩

@[simp] theorem get_empty (counter : Counter) : (∅ : Requirement).get counter = none := by
  cases counter <;> rfl

/-- The requirement with the threshold of one counter replaced. -/
def set (wait : Requirement) (counter : Counter) (threshold : Threshold) : Requirement :=
  ofFn fun other => if other = counter then threshold else wait.get other

/-- Setting the threshold of one counter leaves the others. -/
theorem get_set (wait : Requirement) (counter other : Counter) (threshold : Threshold) :
    (wait.set counter threshold).get other =
      if other = counter then threshold else wait.get other := by
  simp [set]

/-- Whether a counter has a bound. -/
def isSet (wait : Requirement) (counter : Counter) : Bool := (wait.get counter).isSome

/-- Whether no counter has a bound. -/
def isEmpty (wait : Requirement) : Bool := Counter.all.all fun counter => !wait.isSet counter

/-- The requirement that the chosen counters drain, on top of `wait`. -/
def drain (wait : Requirement) (chosen : Counter → Bool) : Requirement :=
  ofFn fun counter => if chosen counter then some 0 else wait.get counter

/-- The requirement that all the given counters drain and no other. -/
def zero (counters : List Counter) : Requirement :=
  drain ∅ fun counter => counters.contains counter

/-- The requirement restricted to the chosen counters. -/
def only (wait : Requirement) (chosen : Counter → Bool) : Requirement :=
  ofFn fun counter => if chosen counter then wait.get counter else none

/-- Both requirements at once: the stricter threshold of each counter. -/
def combine (left right : Requirement) : Requirement :=
  ofFn fun counter => (left.get counter).stricter (right.get counter)

/-- Whether combining with the second requirement makes the first one stricter. -/
def tightens (left right : Requirement) : Bool :=
  Counter.all.any fun counter => (right.get counter).isStricter (left.get counter)

/-- The counters with a bound and their thresholds, in order. -/
def toList (wait : Requirement) : List (Counter × Nat) :=
  Counter.all.filterMap fun counter => (wait.get counter).map fun n => (counter, n)

/-- The bounds of the requirement in braces. -/
def text (wait : Requirement) : String :=
  let bounds := wait.toList.map fun (counter, n) => s!"{counter.name}:{n}"
  "\x7b" ++ String.intercalate " " bounds ++ "\x7d"

@[simp] theorem get_combine (left right : Requirement) (counter : Counter) :
    (left.combine right).get counter = (left.get counter).stricter (right.get counter) := by
  simp [combine]

@[simp] theorem get_drain (wait : Requirement) (chosen : Counter → Bool) (counter : Counter) :
    (wait.drain chosen).get counter = if chosen counter then some 0 else wait.get counter := by
  simp [drain]

@[simp] theorem get_only (wait : Requirement) (chosen : Counter → Bool) (counter : Counter) :
    (wait.only chosen).get counter = if chosen counter then wait.get counter else none := by
  simp [only]

end Requirement

end WaveHazard.Wait
