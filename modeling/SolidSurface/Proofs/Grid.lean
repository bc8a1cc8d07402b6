import Mathlib.Tactic.Ring
import SolidSurface.Proofs.Box
import SolidSurface.Extraction.Grid

/-! # Positions on a grid

In exact arithmetic the samples of a grid are the half-cell points with even coordinates, and
rounding recovers the coordinates of a half-cell point from its position.
-/

namespace SolidSurface.Grid

variable {α : Type}

section Scalar

variable [Scalar α] {g : Grid α} {bounds : Box α} {cellSize : α}

theorem ofBounds_eq_ok_iff : ofBounds bounds cellSize = .ok g ↔
    Scalar.isPositive cellSize = true ∧ bounds.isValid = true ∧
      g = ⟨bounds.size.map (sampleCount cellSize), bounds.lower - Vec3.repeated cellSize,
        cellSize⟩ := by
  rw [ofBounds]
  cases Scalar.isPositive cellSize <;> cases bounds.isValid <;> simp [eq_comm]

theorem get_position (g : Grid α) (p : LatticePoint) (a : Axis) :
    (g.position p).get a = g.origin.get a + Scalar.ofNat (p.get a) * g.cellSize := by
  cases a <;> rfl

theorem get_halfCellPosition (g : Grid α) (h : LatticePoint) (a : Axis) :
    (g.halfCellPosition h).get a =
      g.origin.get a + Scalar.ofNat (h.get a) * (g.cellSize * Scalar.half) := by
  cases a <;> rfl

/-- Nearest half-cell coordinates are found axis by axis. -/
theorem halfCoordinates?_eq_some_iff {p : Point α} {h : LatticePoint} :
    g.halfCoordinates? p = some h ↔ ∀ a, halfCoordinate? (g.dimensions.get a)
      ((p.get a - g.origin.get a) / (g.cellSize * Scalar.half)) = some (h.get a) := by
  simp only [halfCoordinates?, Option.bind_eq_bind, Option.bind_eq_some_iff, Option.pure_def,
    Option.some.injEq]
  constructor
  · rintro ⟨x, hx, y, hy, z, hz, rfl⟩ a
    cases a
    exacts [hx, hy, hz]
  · exact fun hall => ⟨_, hall .x, _, hall .y, _, hall .z, rfl⟩

end Scalar

/-! ## Exact positions -/

section Exact

variable [FieldScalar α] {g : Grid α} {bounds : Box α} {cellSize : α}

theorem cellSize_pos (h : ofBounds bounds cellSize = .ok g) :
    g.cellSize = cellSize ∧ 0 < g.cellSize := by
  obtain ⟨hpositive, -, rfl⟩ := ofBounds_eq_ok_iff.mp h
  exact ⟨rfl, (Scalar.isPositive_iff cellSize).mp hpositive⟩

theorem get_position_eq (g : Grid α) (p : LatticePoint) (a : Axis) :
    (g.position p).get a = g.origin.get a + (p.get a : α) * g.cellSize := by
  rw [get_position, FieldScalar.ofNat_eq]

theorem get_halfCellPosition_eq (g : Grid α) (h : LatticePoint) (a : Axis) :
    (g.halfCellPosition h).get a = g.origin.get a + (h.get a : α) * (g.cellSize / 2) := by
  rw [get_halfCellPosition, FieldScalar.ofNat_eq, Scalar.half_eq, mul_one_div]

/-- A sample is a half-cell point with even coordinates. -/
theorem halfCellPosition_double (g : Grid α) (p : LatticePoint) :
    g.halfCellPosition (p.map (2 * ·)) = g.position p := by
  refine Vec3.ext_get fun a => ?_
  rw [get_halfCellPosition_eq, get_position_eq, Vec3.get_map]
  push_cast
  ring

end Exact

/-! ## Rounding -/

section Counting

variable [CountingScalar α] {g : Grid α}

theorem halfCoordinate?_natCast {n i : Nat} (hi : i ≤ 2 * (n - 1)) :
    halfCoordinate? n (i : α) = some i := by
  have hrange : (0 : α) ≤ i ∧ (i : α) ≤ Scalar.ofNat (halfLimit α n) := by
    rw [halfLimit, CountingScalar.wrapIndex_eq, FieldScalar.ofNat_eq]
    exact ⟨Nat.cast_nonneg i, Nat.cast_le.mpr hi⟩
  rw [halfCoordinate?, Scalar.round_natCast, if_pos hrange, CountingScalar.toNat_natCast]

/-- The position of a half-cell point tells its coordinates. -/
theorem halfCoordinates?_halfCellPosition (hcell : 0 < g.cellSize) {h : LatticePoint}
    (hh : ∀ a, h.get a ≤ 2 * (g.dimensions.get a - 1)) :
    g.halfCoordinates? (g.halfCellPosition h) = some h := by
  have hrel : ∀ a, ((g.halfCellPosition h).get a - g.origin.get a) / (g.cellSize * Scalar.half) =
      (h.get a : α) := by
    intro a
    rw [get_halfCellPosition, FieldScalar.ofNat_eq, add_sub_cancel_left, Scalar.half_eq,
      mul_one_div]
    exact mul_div_cancel_right₀ _ (half_pos hcell).ne'
  refine halfCoordinates?_eq_some_iff.mpr fun a => ?_
  rw [hrel, halfCoordinate?_natCast (hh a)]

/-- A distance is rounded to a nearest whole number, which is found if it is in range. -/
theorem exists_halfCoordinate?_eq (n : Nat) (d : α) : ∃ z : ℤ, |d - z| ≤ 1 / 2 ∧
    halfCoordinate? n d = if 0 ≤ z ∧ z ≤ (2 * (n - 1) : Nat) then some z.toNat else none := by
  obtain ⟨z, hz, hnear⟩ := CountingScalar.exists_round_eq d
  have hle : (z : α) ≤ ((2 * (n - 1) : Nat) : α) ↔ z ≤ (2 * (n - 1) : Nat) := by
    rw [← Int.cast_natCast, Int.cast_le]
  refine ⟨z, hnear, ?_⟩
  simp only [halfCoordinate?, halfLimit, CountingScalar.wrapIndex_eq, FieldScalar.ofNat_eq, hz,
    Int.cast_nonneg_iff, hle]
  split_ifs with hrange
  · obtain ⟨i, rfl⟩ := Int.eq_ofNat_of_zero_le hrange.1
    rw [Int.cast_natCast, CountingScalar.toNat_natCast, Int.toNat_natCast]
  · rfl

/-- What is found is in range and nearest. -/
theorem halfCoordinate?_spec {n i : Nat} {d : α} (h : halfCoordinate? n d = some i) :
    i ≤ 2 * (n - 1) ∧ |d - i| ≤ 1 / 2 := by
  obtain ⟨z, hnear, hz⟩ := exists_halfCoordinate?_eq n d
  rw [h] at hz
  split_ifs at hz with hrange
  · obtain ⟨j, rfl⟩ := Int.eq_ofNat_of_zero_le hrange.1
    rw [Int.toNat_natCast] at hz
    cases hz
    rw [Int.cast_natCast] at hnear
    exact ⟨Int.ofNat_le.mp hrange.2, hnear⟩

/-- The half-cell point with the nearest coordinates is at most a quarter of a cell away along each
axis. -/
theorem abs_sub_le_of_halfCoordinates? (hcell : g.cellSize ≠ 0) {p : Point α} {h : LatticePoint}
    (hh : g.halfCoordinates? p = some h) (a : Axis) :
    |p.get a - (g.halfCellPosition h).get a| ≤ |g.cellSize| / 4 := by
  have hnear := (halfCoordinate?_spec (halfCoordinates?_eq_some_iff.mp hh a)).2
  rw [Scalar.half_eq, mul_one_div] at hnear
  have hhalf : 0 < |g.cellSize / 2| := abs_pos.mpr (div_ne_zero hcell two_ne_zero)
  calc |p.get a - (g.halfCellPosition h).get a|
      = |(p.get a - g.origin.get a) / (g.cellSize / 2) - h.get a| * |g.cellSize / 2| := by
        rw [get_halfCellPosition_eq, ← abs_mul, sub_mul,
          div_mul_cancel₀ _ (div_ne_zero hcell two_ne_zero), sub_sub]
    _ ≤ 1 / 2 * |g.cellSize / 2| := mul_le_mul_of_nonneg_right hnear hhalf.le
    _ = |g.cellSize| / 4 := by
        rw [abs_div, abs_two]
        ring

end Counting

/-! ## Padding -/

section Measuring

variable [MeasuringScalar α] {g : Grid α} {bounds : Box α} {cellSize : α} {a : Axis}

/-- The count of cells along an extent is rounded up, which may leave nothing over. -/
theorem exists_sampleCount_eq {extent : α} (hcell : 0 < cellSize) (hextent : 0 ≤ extent) :
    ∃ n : ℕ, sampleCount cellSize extent = n + 3 ∧ extent ≤ n * cellSize := by
  obtain ⟨z, hz, hle, -⟩ := MeasuringScalar.exists_ceil_eq (extent / cellSize)
  have hnonneg : (0 : α) ≤ z := (div_nonneg hextent hcell.le).trans hle
  obtain ⟨n, rfl⟩ := Int.eq_ofNat_of_zero_le (Int.cast_nonneg_iff.mp hnonneg)
  rw [Int.cast_natCast] at hz hle
  refine ⟨n, ?_, (div_le_iff₀ hcell).mp hle⟩
  rw [sampleCount, hz, CountingScalar.toNat_natCast, CountingScalar.wrapIndex_eq]

/-- Along each axis a grid has one cell below the bounds, cells that cover them and one above. -/
theorem exists_padding (hgrid : ofBounds bounds cellSize = .ok g) (a : Axis) :
    g.origin.get a = bounds.lower.get a - g.cellSize ∧
      ∃ n : ℕ, g.dimensions.get a = n + 3 ∧
        bounds.upper.get a ≤ bounds.lower.get a + n * g.cellSize := by
  obtain ⟨hpositive, hvalid, rfl⟩ := ofBounds_eq_ok_iff.mp hgrid
  have hextent : 0 ≤ bounds.upper.get a - bounds.lower.get a :=
    sub_nonneg.mpr (Box.lower_le_upper_of_isValid hvalid a)
  obtain ⟨n, hn, hle⟩ :=
    exists_sampleCount_eq ((Scalar.isPositive_iff cellSize).mp hpositive) hextent
  refine ⟨by rw [Vec3.get_sub, Vec3.get_repeated], n, ?_, sub_le_iff_le_add'.mp hle⟩
  rw [Vec3.get_map, Box.size, Vec3.get_sub, hn]

theorem position_lt_lower (hgrid : ofBounds bounds cellSize = .ok g) {p : LatticePoint}
    (hp : p.get a = 0) : (g.position p).get a < bounds.lower.get a := by
  rw [get_position_eq, (exists_padding hgrid a).1, hp, Nat.cast_zero, zero_mul, add_zero]
  exact sub_lt_self _ (cellSize_pos hgrid).2

theorem upper_lt_position (hgrid : ofBounds bounds cellSize = .ok g) {p : LatticePoint}
    (hp : p.get a + 1 = g.dimensions.get a) : bounds.upper.get a < (g.position p).get a := by
  obtain ⟨horigin, n, hn, hle⟩ := exists_padding hgrid a
  have hlast : p.get a = n + 2 := by omega
  have hcell := (cellSize_pos hgrid).2
  calc bounds.upper.get a ≤ bounds.lower.get a + n * g.cellSize := hle
    _ < bounds.lower.get a + n * g.cellSize + g.cellSize := lt_add_of_pos_right _ hcell
    _ = (g.position p).get a := by
      rw [get_position_eq, horigin, hlast]
      push_cast
      ring

end Measuring

end SolidSurface.Grid
