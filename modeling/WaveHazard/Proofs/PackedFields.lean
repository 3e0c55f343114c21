import WaveHazard.Proofs.Outcome
import WaveHazard.Wait.Packed

/-! # The packed immediate on later generations

Before GFX11 the fields of the packed immediate have grown: vector memory has two more bits since
GFX9, and data share since GFX10. Older generations do not read these bits but write them, as ones
when there is no threshold and as zeros when there is one. So a later generation of the same layout
reads the thresholds that were written. From GFX11 on there is another layout, and its fields have
kept their widths.
-/

namespace WaveHazard.Wait.Requirement

open Machine

/-- Whether every threshold that is packed is below the all-ones value of its field. -/
def FitsPacked (generation : Generation) (wait : Requirement) : Prop :=
  ∀ counter ∈ [Counter.exp, .lgkm, .vm], ∀ bound ∈ wait.get counter,
    bound < generation.fieldMax counter

instance (generation : Generation) (wait : Requirement) : Decidable (FitsPacked generation wait) :=
  inferInstanceAs (Decidable (∀ counter ∈ _, ∀ bound ∈ wait.get counter, _))

/-- Whether two generations lay the packed immediate out in the same way. -/
def SameLayout (left right : Generation) : Prop := left < .gfx11 ↔ right < .gfx11

instance (left right : Generation) : Decidable (SameLayout left right) :=
  inferInstanceAs (Decidable (_ ↔ _))

/-- The two upper bits of a field that has had them since some generation. -/
def upperBits (since generation : Generation) (threshold : Threshold) : Nat :=
  if since ≤ generation then threshold.toByte / 16 % 4 else if threshold.isNone then 3 else 0

/-- The all-ones value of such a field. -/
def grownMax (since generation : Generation) : Nat := if since ≤ generation then 63 else 15

variable {older newer generation : Generation} {wait : Requirement} {threshold : Threshold}
  {imm : Nat}

/-! ## One field -/

section Field

/-- A field that is not all ones holds a threshold. -/
theorem ofField_of_ne {value largest : Nat} (different : value ≠ largest) :
    ofField value largest = some value :=
  if_neg different

/-- A field that is all ones without a threshold is read as the threshold. -/
theorem ofField_getD {largest : Nat} (small : ∀ bound, threshold = some bound → bound < largest) :
    ofField (threshold.getD largest) largest = threshold := by
  cases threshold with
  | none => exact if_pos rfl
  | some bound => exact ofField_of_ne (Nat.ne_of_lt (small bound rfl))

/-- Fields do not shrink on later generations. -/
theorem grownMax_mono (since : Generation) (later : older ≤ newer) :
    grownMax since older ≤ grownMax since newer := by
  unfold grownMax
  by_cases old : since ≤ older
  · have wide : since ≤ newer := Nat.le_trans old later
    exact Nat.le_of_eq ((if_pos old).trans (if_pos wide).symm)
  · rw [if_neg old]
    split <;> decide

/-- There are two upper bits. -/
theorem upperBits_lt (since generation : Generation) (threshold : Threshold) :
    upperBits since generation threshold < 4 := by
  unfold upperBits
  split
  · exact Nat.mod_lt _ (by decide)
  · split <;> decide

/-- Bits that only the newer generation reads extend the field to what is all ones there. -/
theorem field_grown {since : Generation} (later : older ≤ newer)
    (small : ∀ bound, threshold = some bound → bound < grownMax since older) :
    threshold.toByte % 16 + (if since ≤ newer then upperBits since older threshold * 16 else 0) =
      threshold.getD (grownMax since newer) := by
  unfold upperBits grownMax at *
  cases threshold with
  | none =>
      have byte : Threshold.toByte none = 255 := rfl
      rw [byte]
      by_cases wide : since ≤ newer
      · rw [if_pos wide, if_pos wide]
        split <;> rfl
      · rw [if_neg wide, if_neg wide]
        rfl
  | some bound =>
      have byte : Threshold.toByte (some bound) = bound := rfl
      have below := small bound rfl
      rw [byte, Option.getD_some]
      by_cases old : since ≤ older
      · have wide : since ≤ newer := Nat.le_trans old later
        rw [if_pos old] at below
        rw [if_pos wide, if_pos old]
        omega
      · rw [if_neg old] at below
        rw [if_neg old, Option.isNone_some, if_neg Bool.false_ne_true]
        split <;> omega

/-- The byte of a threshold, cut to the width of a field. -/
theorem field_kept {largest : Nat} (ones : Threshold.unset % (largest + 1) = largest)
    (small : ∀ bound, threshold = some bound → bound < largest) :
    threshold.toByte % (largest + 1) = threshold.getD largest := by
  cases threshold with
  | none => exact ones
  | some bound => exact Nat.mod_eq_of_lt (Nat.lt_succ_of_lt (small bound rfl))

end Field

/-! ## The whole immediate -/

/-- The immediate before GFX11, with the bits that the generation itself does not read. -/
theorem pack_before_gfx11 (before : ¬ .gfx11 ≤ older) (packed : wait.pack older = .ok imm) :
    imm = upperBits .gfx9 older wait.vm * 16384 + upperBits .gfx10 older wait.lgkm * 4096 +
      wait.lgkm.toByte % 16 * 256 + wait.exp.toByte % 8 * 16 + wait.vm.toByte % 16 := by
  unfold pack at packed
  obtain ⟨_, _, packed⟩ := Outcome.bind_eq_ok.mp packed
  rw [if_neg before] at packed
  unfold upperBits
  by_cases wide : Generation.gfx10 ≤ older
  · have wider : Generation.gfx9 ≤ older := Nat.le_trans (by decide) wide
    rw [if_pos wide] at packed
    rw [if_pos wide, if_pos wider, ← Except.ok.inj packed]
    omega
  · rw [if_neg wide] at packed
    rw [if_neg wide]
    by_cases wider : Generation.gfx9 ≤ older
    · rw [if_pos wider] at packed
      rw [if_pos wider, ← Except.ok.inj packed]
      split <;> omega
    · rw [if_neg wider] at packed
      rw [if_neg wider, ← Except.ok.inj packed]
      split <;> split <;> omega

/-- The immediate from GFX11 on. -/
theorem pack_since_gfx11 (since : .gfx11 ≤ older) (packed : wait.pack older = .ok imm) :
    imm = wait.vm.toByte % 64 * 1024 + wait.lgkm.toByte % 64 * 16 + wait.exp.toByte % 8 := by
  unfold pack at packed
  obtain ⟨_, _, packed⟩ := Outcome.bind_eq_ok.mp packed
  rw [if_pos since] at packed
  obtain ⟨_, _, packed⟩ := Outcome.bind_eq_ok.mp packed
  obtain ⟨_, _, packed⟩ := Outcome.bind_eq_ok.mp packed
  exact (Except.ok.inj packed).symm

/-- The packed immediate has 16 bits. -/
theorem pack_lt (packed : wait.pack generation = .ok imm) : imm < 65536 := by
  by_cases since : .gfx11 ≤ generation
  · have whole := pack_since_gfx11 since packed
    omega
  · have whole := pack_before_gfx11 since packed
    have loads := upperBits_lt .gfx9 generation wait.vm
    have share := upperBits_lt .gfx10 generation wait.lgkm
    omega

namespace FitsPacked

variable (fits : FitsPacked older wait)

include fits

/-- The threshold for exports is below the all-ones value of its three bits. -/
theorem exp : ∀ bound, wait.exp = some bound → bound < 7 := fits .exp (by decide)

/-- The threshold of the counter that scalar memory shares with messages is below the all-ones value
of the older field. -/
theorem lgkm : ∀ bound, wait.lgkm = some bound → bound < grownMax .gfx10 older :=
  fits .lgkm (by decide)

/-- The threshold for vector memory is below the all-ones value of the older field. -/
theorem vm : ∀ bound, wait.vm = some bound → bound < grownMax .gfx9 older := fits .vm (by decide)

/-- Thresholds that fit into their fields can be packed. -/
theorem succeeds_pack : Outcome.Succeeds (wait.pack older) := by
  have checked {field : String} {threshold : Threshold} {most largest : Nat}
      (within : most ≤ largest) (small : ∀ bound, threshold = some bound → bound < most) :
      checkField field threshold largest = .ok () := by
    cases threshold with
    | none => rfl
    | some bound => exact if_pos (Nat.le_trans (Nat.le_of_lt (small bound rfl)) within)
  have most (since : Generation) : grownMax since older ≤ 63 := by
    unfold grownMax
    split <;> decide
  unfold pack
  rw [checked (by decide) fits.exp, checked (most .gfx9) fits.vm, checked (most .gfx10) fits.lgkm]
  exact (Outcome.succeeds_ok ()).bind fun _ _ =>
    Outcome.succeeds_ite (fun _ => ⟨_, rfl⟩) fun _ =>
      Outcome.succeeds_ite (fun _ => ⟨_, rfl⟩) fun _ =>
        Outcome.succeeds_ite (fun _ => ⟨_, rfl⟩) fun _ => ⟨_, rfl⟩

/-- A later generation of the first layout reads the same thresholds. -/
theorem ofPacked_before_gfx11 (later : older ≤ newer) (before : ¬ .gfx11 ≤ newer)
    (packed : wait.pack older = .ok imm) :
    ofPacked newer imm = { exp := wait.exp, lgkm := wait.lgkm, vm := wait.vm } := by
  have whole := pack_before_gfx11 (fun since => before (Nat.le_trans since later)) packed
  have loads := upperBits_lt .gfx9 older wait.vm
  have share := upperBits_lt .gfx10 older wait.lgkm
  have vmHigh : imm / 16384 % 4 = upperBits .gfx9 older wait.vm := by omega
  have vmLow : imm % 16 = wait.vm.toByte % 16 := by omega
  have lgkmHigh : imm / 4096 % 4 = upperBits .gfx10 older wait.lgkm := by omega
  have lgkmLow : imm / 256 % 16 = wait.lgkm.toByte % 16 := by omega
  have expField : imm / 16 % 8 = wait.exp.toByte % (7 + 1) := by omega
  have exp := ofField_getD fits.exp
  have lgkm := ofField_getD fun bound found =>
    Nat.lt_of_lt_of_le (fits.lgkm bound found) (grownMax_mono .gfx10 later)
  have vm := ofField_getD fun bound found =>
    Nat.lt_of_lt_of_le (fits.vm bound found) (grownMax_mono .gfx9 later)
  unfold ofPacked
  dsimp only
  rw [if_neg before, vmHigh, vmLow, lgkmHigh, lgkmLow, expField, field_grown later fits.vm,
    field_grown later fits.lgkm, field_kept rfl fits.exp]
  exact Requirement.ext exp lgkm vm rfl rfl rfl rfl

/-- A later generation of the second layout reads the same thresholds. -/
theorem ofPacked_since_gfx11 (later : older ≤ newer) (since : .gfx11 ≤ older)
    (packed : wait.pack older = .ok imm) :
    ofPacked newer imm = { exp := wait.exp, lgkm := wait.lgkm, vm := wait.vm } := by
  have whole := pack_since_gfx11 since packed
  have lasts : .gfx11 ≤ newer := Nat.le_trans since later
  -- The fields that have grown before are as wide as they get.
  have grown {first generation : Generation} (old : first ≤ .gfx11) (late : .gfx11 ≤ generation) :
      grownMax first generation = 63 := if_pos (Nat.le_trans old late)
  have lgkmFits := fits.lgkm
  have vmFits := fits.vm
  rw [grown (by decide) since] at lgkmFits vmFits
  have vmField : imm / 1024 % 64 = wait.vm.toByte % (63 + 1) := by omega
  have lgkmField : imm / 16 % 64 = wait.lgkm.toByte % (63 + 1) := by omega
  have expField : imm % 8 = wait.exp.toByte % (7 + 1) := by omega
  have vmMax : newer.fieldMax .vm = 63 := grown (by decide) lasts
  have lgkmMax : newer.fieldMax .lgkm = 63 := grown (by decide) lasts
  have exp := ofField_getD fits.exp
  have lgkm := ofField_getD lgkmFits
  have vm := ofField_getD vmFits
  unfold ofPacked
  dsimp only
  rw [if_pos lasts, vmField, lgkmField, expField, vmMax, lgkmMax, field_kept rfl vmFits,
    field_kept rfl lgkmFits, field_kept rfl fits.exp]
  exact Requirement.ext exp lgkm vm rfl rfl rfl rfl

/-- The thresholds are read back by every later generation of the same layout. -/
theorem ofPacked_of_pack (later : older ≤ newer) (layout : SameLayout older newer)
    (packed : wait.pack older = .ok imm) :
    ofPacked newer imm = wait.only [Counter.exp, .lgkm, .vm].contains := by
  by_cases since : .gfx11 ≤ older
  · exact fits.ofPacked_since_gfx11 later since packed
  · have before : newer < .gfx11 := layout.mp (Nat.not_le.mp since)
    exact fits.ofPacked_before_gfx11 later (Nat.not_le.mpr before) packed

end FitsPacked

/-- Thresholds that fit into their fields are packed into 16 bits, which every later generation of
the same layout reads as these thresholds and no others. -/
theorem pack_read_by_later (later : older ≤ newer) (layout : SameLayout older newer)
    (fits : FitsPacked older wait) :
    ∃ imm < 65536, wait.pack older = .ok imm ∧
      ofPacked newer imm = wait.only [Counter.exp, .lgkm, .vm].contains := by
  obtain ⟨imm, packed⟩ := fits.succeeds_pack
  exact ⟨imm, pack_lt packed, packed, fits.ofPacked_of_pack later layout packed⟩

/-- Without a bound for vector memory the bits that GFX8 does not read itself are set, and without
one for data share those that GFX9 does not read. -/
theorem pack_of_gfx8_read_by_gfx10 :
    (∃ imm < 65536, pack { exp := some 6, lgkm := some 14, vs := some 3 } .gfx8 = .ok imm ∧
      ofPacked .gfx10 imm = { exp := some 6, lgkm := some 14 }) ∧
    (∃ imm < 65536, pack { vm := some 62 } .gfx9 = .ok imm ∧
      ofPacked .gfx10p3 imm = { vm := some 62 }) ∧
    ∃ imm < 65536, pack { exp := some 0, lgkm := some 62, vm := some 0 } .gfx11 = .ok imm ∧
      ofPacked .gfx12 imm = { exp := some 0, lgkm := some 62, vm := some 0 } := by
  have first := @pack_read_by_later .gfx8 .gfx10 { exp := some 6, lgkm := some 14, vs := some 3 }
    (by decide) (by decide) (by decide)
  have second := @pack_read_by_later .gfx9 .gfx10p3 { vm := some 62 }
    (by decide) (by decide) (by decide)
  have third := @pack_read_by_later .gfx11 .gfx12 { exp := some 0, lgkm := some 62, vm := some 0 }
    (by decide) (by decide) (by decide)
  exact ⟨first, second, third⟩

end WaveHazard.Wait.Requirement
