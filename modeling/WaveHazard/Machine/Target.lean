/-! # Targets

The hardware a program is compiled for: its generation, the shape of waves and workgroups, and
the hardware bugs that call for extra waits. Generations are ordered by age.
-/

namespace WaveHazard.Machine

/-- A hardware generation. -/
inductive Generation where
  | gfx6
  | gfx7
  | gfx8
  | gfx9
  | gfx10
  | gfx10p3
  | gfx11
  | gfx11p5
  | gfx12
deriving DecidableEq, Inhabited

namespace Generation

/-- All generations, oldest first. -/
def all : List Generation :=
  [.gfx6, .gfx7, .gfx8, .gfx9, .gfx10, .gfx10p3, .gfx11, .gfx11p5, .gfx12]

/-- The place of a generation among all of them, oldest first. -/
def rank : Generation → Nat
  | gfx6 => 0
  | gfx7 => 1
  | gfx8 => 2
  | gfx9 => 3
  | gfx10 => 4
  | gfx10p3 => 5
  | gfx11 => 6
  | gfx11p5 => 7
  | gfx12 => 8

instance : LE Generation := ⟨fun older newer => older.rank ≤ newer.rank⟩

instance : LT Generation := ⟨fun older newer => older.rank < newer.rank⟩

instance (older newer : Generation) : Decidable (older ≤ newer) :=
  inferInstanceAs (Decidable (older.rank ≤ newer.rank))

instance (older newer : Generation) : Decidable (older < newer) :=
  inferInstanceAs (Decidable (older.rank < newer.rank))

/-- The name of the generation. -/
def text : Generation → String
  | gfx6 => "gfx6"
  | gfx7 => "gfx7"
  | gfx8 => "gfx8"
  | gfx9 => "gfx9"
  | gfx10 => "gfx10"
  | gfx10p3 => "gfx10.3"
  | gfx11 => "gfx11"
  | gfx11p5 => "gfx11.5"
  | gfx12 => "gfx12"

/-- The name of the generation in structured data. -/
def label : Generation → String
  | gfx6 => "Gfx6"
  | gfx7 => "Gfx7"
  | gfx8 => "Gfx8"
  | gfx9 => "Gfx9"
  | gfx10 => "Gfx10"
  | gfx10p3 => "Gfx10_3"
  | gfx11 => "Gfx11"
  | gfx11p5 => "Gfx11_5"
  | gfx12 => "Gfx12"

/-- The generation with the given name. -/
def ofText? (name : String) : Option Generation := all.find? fun generation =>
  generation.text == name

end Generation

/-- Hardware bugs that call for extra waits. -/
structure Errata where
  /-- A scalar load after a scalar store may return stale data unless the store completed. -/
  scalarStoreLoad : Bool := false
  /-- Leaving the ordered section of an overlapped pixel shader requires that its memory accesses
  completed. -/
  overlappedWaves : Bool := false
deriving DecidableEq, Inhabited

/-- The hardware a program is compiled for. -/
structure Target where
  generation : Generation
  /-- The number of lanes of a wave. -/
  waveSize : Nat
  /-- The number of invocations of a workgroup. -/
  workgroupSize : Nat
  /-- Workgroups span a whole workgroup processor instead of a single compute unit. -/
  wgpMode : Bool := false
  errata : Errata := {}
deriving DecidableEq

/-- The target of a generation with a workgroup of a single wave and the errata of the
generation. -/
def Target.ofGeneration (generation : Generation) : Target :=
  let waveSize := if .gfx10 ≤ generation then 32 else 64
  { generation, waveSize, workgroupSize := waveSize,
    errata := { scalarStoreLoad := decide (.gfx10 ≤ generation) } }

instance : Inhabited Target := ⟨.ofGeneration .gfx10p3⟩

end WaveHazard.Machine
