import Mathlib
import SolidSurface.Scalar.Binary64

/-! # Binary floating point in whole units

Every finite float is a whole multiple of the least positive one, `2 ^ (-1074)`. Counted in these
units floats are integers, and infinity stands where the next exponent would begin. The count
forgets nothing but the sign of zero, so all comparisons are comparisons of counts.
-/

namespace SolidSurface.Binary64

open Float.Model
open Float.Model.UnpackedFloat

/-- `m * 2 ^ e` in units. -/
def magnitude (m : ℕ) (e : ℤ) : ℕ :=
  m * 2 ^ (e + 1074).toNat

/-- Where finite numbers end and infinity stands. -/
def limit : ℕ :=
  magnitude (2 ^ 52) 972

def unpackedUnits? : UnpackedFloat → Option ℤ
  | .notANumber => none
  | .infinity s => some (s.apply limit)
  | .zero _ => some 0
  | .finite s m e _ => some (s.apply (magnitude m e))

/-- The number of units in a float, unless it is not a number. -/
def units? (x : Float) : Option ℤ :=
  unpackedUnits? x.toModel.unpack

/-! ## Mantissas and exponents -/

/-- A full mantissa of 53 bits, or any shorter one at the least exponent. -/
structure Canonical (m : ℕ) (e : ℤ) : Prop where
  lt : m < 2 ^ 53
  exponent : -1074 ≤ e
  full : 2 ^ 52 ≤ m ∨ e = -1074

/-- What the bits of a float can hold. -/
def Fits : UnpackedFloat → Prop
  | .finite _ m e _ => Canonical m e ∧ e ≤ 971
  | _ => True

theorem append_one (v : BitVec 52) : (1#1 ++ v).toNat = 2 ^ 52 + v.toNat := by
  rw [BitVec.toNat_append, ← Nat.shiftLeft_add_eq_or_of_lt v.isLt]
  rfl

theorem canonical_unpack {b : BitVec 64} {s : Sign} {m : ℕ} {e : ℤ} {hm : 0 < m}
    (h : UnpackedFloat.unpack Format.binary64 b = .finite s m e hm) : Canonical m e ∧ e ≤ 971 := by
  have hexponent : (@unpackExponent Format.binary64 b).toNat < 2 ^ 11 :=
    (@unpackExponent Format.binary64 b).isLt
  have hmantissa : (@unpackMantissa Format.binary64 b).toNat < 2 ^ 52 :=
    (@unpackMantissa Format.binary64 b).isLt
  simp only [UnpackedFloat.unpack] at h
  split_ifs at h with hall hnan hzero hnil
  · obtain ⟨-, rfl, rfl⟩ := UnpackedFloat.finite.inj h
    rw [hzero]
    refine ⟨⟨?_, by decide, .inr (by decide)⟩, by decide⟩
    exact hmantissa.trans (by decide)
  · obtain ⟨-, rfl, rfl⟩ := UnpackedFloat.finite.inj h
    have hpos : @unpackExponent Format.binary64 b ≠ 0#11 := hzero
    have htop : @unpackExponent Format.binary64 b ≠ -1#11 := hall
    rw [ne_eq, ← BitVec.toNat_inj] at hpos htop
    have hbias : Format.binary64.exponentBias = 1023 := by decide
    have hsum := append_one (@unpackMantissa Format.binary64 b)
    simp only [BitVec.toNat_ofNat, Nat.zero_mod, show (-1#11).toNat = 2047 by decide] at hpos htop
    refine ⟨⟨?_, ?_, .inl ?_⟩, ?_⟩
    all_goals omega

theorem fits_unpack (b : BitVec 64) : Fits (UnpackedFloat.unpack Format.binary64 b) := by
  cases h : UnpackedFloat.unpack Format.binary64 b with
  | finite s m e hm => exact canonical_unpack h
  | _ => trivial

theorem magnitude_pos {m : ℕ} (hm : 0 < m) (e : ℤ) : 0 < magnitude m e :=
  Nat.mul_pos hm (Nat.two_pow_pos _)

/-- The higher exponent wins, since only the least one has mantissas that are not full. -/
theorem magnitude_lt_of_exponent_lt {m m' : ℕ} {e e' : ℤ} (h : Canonical m e)
    (h' : Canonical m' e') (he : e < e') : magnitude m e < magnitude m' e' := by
  have hfull : 2 ^ 52 ≤ m' := h'.full.resolve_right (by have := h.exponent; omega)
  calc m * 2 ^ (e + 1074).toNat < 2 ^ 53 * 2 ^ (e + 1074).toNat :=
        Nat.mul_lt_mul_of_pos_right h.lt (Nat.two_pow_pos _)
    _ = 2 ^ 52 * 2 ^ ((e + 1074).toNat + 1) := by ring
    _ ≤ m' * 2 ^ (e' + 1074).toNat :=
        Nat.mul_le_mul hfull (Nat.pow_le_pow_right (by decide) (by have := h.exponent; omega))

theorem magnitude_lt_limit {m : ℕ} {e : ℤ} (h : Canonical m e) (he : e ≤ 971) :
    magnitude m e < limit :=
  magnitude_lt_of_exponent_lt h ⟨by decide, by decide, .inl le_rfl⟩ (by omega)

theorem limit_pos : 0 < limit :=
  magnitude_pos (by decide) _

/-! ## Comparison -/

theorem compare_magnitude {m m' : ℕ} {e e' : ℤ} (h : Canonical m e) (h' : Canonical m' e') :
    (compare e e').then (compare m m') = compare (magnitude m e) (magnitude m' e') := by
  rcases lt_trichotomy e e' with hlt | rfl | hgt
  · rw [compare_lt_iff_lt.mpr hlt, compare_lt_iff_lt.mpr (magnitude_lt_of_exponent_lt h h' hlt)]
    rfl
  · have hp : 0 < 2 ^ (e + 1074).toNat := Nat.two_pow_pos _
    rw [compare_eq_iff_eq.mpr rfl, Ordering.then, magnitude, magnitude]
    rcases lt_trichotomy m m' with hm | rfl | hm
    · rw [compare_lt_iff_lt.mpr hm, compare_lt_iff_lt.mpr (Nat.mul_lt_mul_of_pos_right hm hp)]
    · rw [compare_eq_iff_eq.mpr rfl, compare_eq_iff_eq.mpr rfl]
    · rw [compare_gt_iff_gt.mpr hm, compare_gt_iff_gt.mpr (Nat.mul_lt_mul_of_pos_right hm hp)]
  · rw [compare_gt_iff_gt.mpr hgt, compare_gt_iff_gt.mpr (magnitude_lt_of_exponent_lt h' h hgt)]
    rfl

/-- Comparison of what is neither zero nor without a value. -/
theorem compare_apply (s s' : Sign) {m n : ℕ} (hm : 0 < m) (hn : 0 < n) :
    compare (s.apply m) (s'.apply n) =
      match s, s' with
      | .negative, .negative => (compare m n).swap
      | .negative, .positive => .lt
      | .positive, .negative => .gt
      | .positive, .positive => compare m n := by
  cases s <;> cases s' <;> simp only [Sign.apply]
  · rcases lt_trichotomy m n with h | h | h
    · rw [compare_lt_iff_lt.mpr h, Ordering.swap_lt, compare_gt_iff_gt]
      omega
    · rw [compare_eq_iff_eq.mpr h, Ordering.swap_eq, compare_eq_iff_eq]
      omega
    · rw [compare_gt_iff_gt.mpr h, Ordering.swap_gt, compare_lt_iff_lt]
      omega
  · rw [compare_lt_iff_lt]
    omega
  · rw [compare_gt_iff_gt]
    omega
  · rcases lt_trichotomy m n with h | h | h
    · rw [compare_lt_iff_lt.mpr h, compare_lt_iff_lt]
      omega
    · rw [compare_eq_iff_eq.mpr h, compare_eq_iff_eq]
      omega
    · rw [compare_gt_iff_gt.mpr h, compare_gt_iff_gt]
      omega

theorem compare_zero_apply (s : Sign) {n : ℕ} (hn : 0 < n) :
    compare 0 (s.apply n) = match s with | .negative => .gt | .positive => .lt := by
  cases s
  · rw [compare_gt_iff_gt, Sign.apply]
    omega
  · rw [compare_lt_iff_lt, Sign.apply]
    omega

theorem compare_apply_zero (s : Sign) {n : ℕ} (hn : 0 < n) :
    compare (s.apply n) 0 = match s with | .negative => .lt | .positive => .gt := by
  cases s
  · rw [compare_lt_iff_lt, Sign.apply]
    omega
  · rw [compare_gt_iff_gt, Sign.apply]
    omega

theorem compare_eq_compare_units {x y : UnpackedFloat} (hx : Fits x) (hy : Fits y) :
    UnpackedFloat.compare x y =
      (unpackedUnits? x).bind fun m => (unpackedUnits? y).map fun n => compare m n := by
  cases x with
  | notANumber => rfl
  | infinity s =>
      cases y with
      | notANumber => rfl
      | infinity s' =>
          change _ = some (compare (s.apply limit) (s'.apply limit))
          rw [compare_apply s s' limit_pos limit_pos, compare_eq_iff_eq.mpr rfl]
          cases s <;> cases s' <;> rfl
      | zero s' =>
          change _ = some (compare (s.apply limit) 0)
          rw [compare_apply_zero s limit_pos]
          cases s <;> rfl
      | finite s' m' e' hm' =>
          change _ = some (compare (s.apply limit) (s'.apply (magnitude m' e')))
          rw [compare_apply s s' limit_pos (magnitude_pos hm' e'),
            compare_gt_iff_gt.mpr (magnitude_lt_limit hy.1 hy.2)]
          cases s <;> cases s' <;> rfl
  | zero s =>
      cases y with
      | notANumber => rfl
      | infinity s' =>
          change _ = some (compare 0 (s'.apply limit))
          rw [compare_zero_apply s' limit_pos]
          cases s' <;> rfl
      | zero s' => rfl
      | finite s' m' e' hm' =>
          change _ = some (compare 0 (s'.apply (magnitude m' e')))
          rw [compare_zero_apply s' (magnitude_pos hm' e')]
          cases s' <;> rfl
  | finite s m e hm =>
      cases y with
      | notANumber => rfl
      | infinity s' =>
          change _ = some (compare (s.apply (magnitude m e)) (s'.apply limit))
          rw [compare_apply s s' (magnitude_pos hm e) limit_pos,
            compare_lt_iff_lt.mpr (magnitude_lt_limit hx.1 hx.2)]
          cases s <;> cases s' <;> rfl
      | zero s' =>
          change _ = some (compare (s.apply (magnitude m e)) 0)
          rw [compare_apply_zero s (magnitude_pos hm e)]
          cases s <;> rfl
      | finite s' m' e' hm' =>
          change _ = some (compare (s.apply (magnitude m e)) (s'.apply (magnitude m' e')))
          rw [compare_apply s s' (magnitude_pos hm e) (magnitude_pos hm' e'),
            ← compare_magnitude hx.1 hy.1]
          cases s <;> cases s' <;> rfl

/-! ## Order -/

theorem compare_unpack (x y : Float) :
    UnpackedFloat.compare x.toModel.unpack y.toModel.unpack =
      (units? x).bind fun m => (units? y).map fun n => compare m n :=
  compare_eq_compare_units (fits_unpack x.toModel.toBits.toBitVec)
    (fits_unpack y.toModel.toBits.toBitVec)

theorem lt_iff {x y : Float} : x < y ↔ ∃ m n, units? x = some m ∧ units? y = some n ∧ m < n := by
  have hlt : x < y ↔ x.toModel.unpack.lt y.toModel.unpack = true := decide_eq_true_iff
  rw [hlt, UnpackedFloat.lt, compare_unpack]
  cases units? x <;> cases units? y <;> simp [compare_lt_iff_lt]

theorem le_iff {x y : Float} : x ≤ y ↔ ∃ m n, units? x = some m ∧ units? y = some n ∧ m ≤ n := by
  have hle : x ≤ y ↔ x.toModel.unpack.le y.toModel.unpack = true := decide_eq_true_iff
  rw [hle, UnpackedFloat.le, compare_unpack]
  cases units? x <;> cases units? y <;> simp [Ordering.isLE_iff_ne_gt, compare_le_iff_le]

theorem beq_iff {x y : Float} : (x == y) = true ↔ ∃ m, units? x = some m ∧ units? y = some m := by
  have hbeq : (x == y) = x.toModel.unpack.beq y.toModel.unpack := rfl
  rw [hbeq, UnpackedFloat.beq, compare_unpack]
  cases units? x <;> cases units? y <;> simp
  exact eq_comm

theorem isFinite_iff {x : Float} :
    x.isFinite = true ↔ ∃ m, units? x = some m ∧ -(limit : ℤ) < m ∧ m < limit := by
  have hpos := limit_pos
  have hfits : Fits x.toModel.unpack := fits_unpack x.toModel.toBits.toBitVec
  change x.toModel.unpack.isFinite = true ↔ ∃ m, unpackedUnits? x.toModel.unpack = _ ∧ _
  cases hx : x.toModel.unpack with
  | notANumber =>
      refine ⟨fun h => absurd h Bool.false_ne_true, ?_⟩
      rintro ⟨m, hm, -⟩
      cases hm
  | infinity s =>
      refine ⟨fun h => absurd h Bool.false_ne_true, ?_⟩
      rintro ⟨m, hm, hbounds⟩
      cases hm
      cases s <;> simp only [Sign.apply] at hbounds <;> omega
  | zero s => exact ⟨fun _ => ⟨0, rfl, by omega, by omega⟩, fun _ => rfl⟩
  | finite s m e hm =>
      rw [hx] at hfits
      have hlt := magnitude_lt_limit hfits.1 hfits.2
      refine ⟨fun _ => ⟨_, rfl, ?_⟩, fun _ => rfl⟩
      cases s <;> simp only [Sign.apply] <;> omega

section Transitivity

variable {x y z : Float}

theorem le_trans (h : x ≤ y) (h' : y ≤ z) : x ≤ z := by
  obtain ⟨m, n, hx, hy, hmn⟩ := le_iff.mp h
  obtain ⟨n', k, hy', hz, hnk⟩ := le_iff.mp h'
  cases hy.symm.trans hy'
  exact le_iff.mpr ⟨m, k, hx, hz, hmn.trans hnk⟩

theorem lt_of_lt_of_le (h : x < y) (h' : y ≤ z) : x < z := by
  obtain ⟨m, n, hx, hy, hmn⟩ := lt_iff.mp h
  obtain ⟨n', k, hy', hz, hnk⟩ := le_iff.mp h'
  cases hy.symm.trans hy'
  exact lt_iff.mpr ⟨m, k, hx, hz, hmn.trans_le hnk⟩

theorem lt_of_le_of_lt (h : x ≤ y) (h' : y < z) : x < z := by
  obtain ⟨m, n, hx, hy, hmn⟩ := le_iff.mp h
  obtain ⟨n', k, hy', hz, hnk⟩ := lt_iff.mp h'
  cases hy.symm.trans hy'
  exact lt_iff.mpr ⟨m, k, hx, hz, hmn.trans_lt hnk⟩

end Transitivity

theorem not_lt_of_le {x y : Float} (h : x ≤ y) : ¬y < x := by
  intro hlt
  obtain ⟨m, n, hm, hn, hlt⟩ := lt_iff.mp (lt_of_le_of_lt h hlt)
  cases hm.symm.trans hn
  exact lt_irrefl m hlt

theorem le_self {x : Float} (hx : x.isFinite = true) : x ≤ x := by
  obtain ⟨m, hm, -⟩ := isFinite_iff.mp hx
  exact le_iff.mpr ⟨m, m, hm, hm, le_rfl⟩

theorem beq_of_le_of_le {x y : Float} (h : x ≤ y) (h' : y ≤ x) : (x == y) = true := by
  obtain ⟨m, n, hx, hy, hmn⟩ := le_iff.mp h
  obtain ⟨n', m', hy', hx', hnm⟩ := le_iff.mp h'
  cases hx.symm.trans hx'
  cases hy.symm.trans hy'
  exact beq_iff.mpr ⟨m, hx, le_antisymm hmn hnm ▸ hy⟩

/-! ## Order of known counts -/

section Known

variable {x y : Float} {m n : ℤ} (hx : units? x = some m) (hy : units? y = some n)

include hx

theorem isFinite_iff_of_units : x.isFinite = true ↔ -(limit : ℤ) < m ∧ m < limit := by
  rw [isFinite_iff, hx]
  exact ⟨fun ⟨k, hk, hbounds⟩ => Option.some.inj hk ▸ hbounds, fun hbounds => ⟨m, rfl, hbounds⟩⟩

include hy

theorem lt_iff_of_units : x < y ↔ m < n := by
  rw [lt_iff, hx, hy]
  simp

theorem le_iff_of_units : x ≤ y ↔ m ≤ n := by
  rw [le_iff, hx, hy]
  simp

end Known

theorem le_total_of_beq_self {x y : Float} (hx : (x == x) = true) (hy : (y == y) = true) :
    x ≤ y ∨ y ≤ x := by
  obtain ⟨m, hm, -⟩ := beq_iff.mp hx
  obtain ⟨n, hn, -⟩ := beq_iff.mp hy
  rw [le_iff_of_units hm hn, le_iff_of_units hn hm]
  exact le_total m n

end SolidSurface.Binary64
