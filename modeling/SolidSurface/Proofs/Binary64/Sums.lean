import SolidSurface.Proofs.Binary64.ZeroByZero

/-! # Sums and squares of binary floating point

A sum is a difference with the sign of one side turned, so it is the exact sum in units, rounded. Of
numbers that are not negative this holds up to and including infinity, and a square grows with the
magnitude of its root there. So no square exceeds the sum of squares it is a part of, and where all
others are zero the sum is that square.
-/

namespace SolidSurface

namespace Binary64

open Float.Model
open Float.Model.UnpackedFloat

/-! ## Negation -/

theorem neg_neg_sign (s : Sign) : - -s = s := by
  cases s <;> rfl

theorem add_eq_sub_neg (f : Format) (u v : UnpackedFloat) :
    UnpackedFloat.add f u v = UnpackedFloat.sub f u v.neg := by
  cases u with
  | notANumber => rfl
  | infinity s =>
      cases v with
      | infinity t => rw [UnpackedFloat.add, UnpackedFloat.neg, UnpackedFloat.sub, neg_neg_sign]
      | _ => rfl
  | zero s =>
      cases v with
      | notANumber => rfl
      | _ => simp only [UnpackedFloat.add, UnpackedFloat.sub, UnpackedFloat.neg, neg_neg_sign]
  | finite s m e hm =>
      cases v with
      | notANumber => rfl
      | zero t => rfl
      | _ =>
          simp only [UnpackedFloat.add, UnpackedFloat.sub, UnpackedFloat.neg, neg_neg_sign,
            apply_neg, sub_neg_eq_add]

theorem fits_neg {u : UnpackedFloat} (h : Fits u) : Fits u.neg := by
  cases u with
  | finite s m e hm => exact h
  | _ => trivial

theorem isFinite_neg (u : UnpackedFloat) : u.neg.isFinite = u.isFinite := by
  cases u <;> rfl

theorem unpackedUnits?_neg (u : UnpackedFloat) :
    unpackedUnits? u.neg = (unpackedUnits? u).map Neg.neg := by
  cases u with
  | notANumber => rfl
  | zero s => rfl
  | infinity s => exact congrArg some (apply_neg s _)
  | finite s m e hm => exact congrArg some (apply_neg s _)

theorem isRounded_of_fits {u : UnpackedFloat} (h : Fits u) : IsRounded u := by
  cases u with
  | finite s m e hm => exact h.1
  | _ => trivial

/-! ## Sums -/

section Sums

variable {x y : Float} {m n : ℤ}

theorem units?_neg (hm : units? x = some m) : units? (-x) = some (-m) := by
  have hneg : -x = .ofModel (.pack x.toModel.unpack.neg) := rfl
  have hbounds := units?_bounds hm
  rw [hneg, units?_ofModel_pack (isRounded_of_fits (fits_neg (fits_toModel x))),
    unpackedUnits?_neg, show unpackedUnits? x.toModel.unpack = some m from hm]
  refine congrArg some ?_
  unfold clamp
  omega

theorem units?_add (hx : x.isFinite = true) (hy : y.isFinite = true) (hm : units? x = some m)
    (hn : units? y = some n) : units? (x + y) = some (clamp (roundedInt 0 (m + n))) := by
  obtain ⟨hrounded, m', k, hm', hk, hsub⟩ := sub_spec (fits_toModel x)
    (fits_neg (fits_toModel y)) hx ((isFinite_neg _).trans hy)
  rw [unpackedUnits?_neg, show unpackedUnits? y.toModel.unpack = some n from hn] at hk
  cases hm.symm.trans hm'
  cases hk
  change units? (.ofModel (.pack (UnpackedFloat.add _ x.toModel.unpack y.toModel.unpack))) = _
  rw [add_eq_sub_neg, units?_ofModel_pack hrounded, hsub, sub_neg_eq_add]
  rfl

theorem roundedInt_limit : roundedInt 0 limit = limit :=
  roundedInt_magnitude .positive ⟨by decide, by decide, .inl le_rfl⟩

/-- What is at least infinite is infinite. -/
theorem clamp_roundedInt_of_limit_le {n : ℤ} (h : limit ≤ n) : clamp (roundedInt 0 n) = limit := by
  have hrounded := roundedInt_mono 0 h
  rw [roundedInt_limit] at hrounded
  have hpos := limit_pos
  unfold clamp
  omega

/-- The number of units of a float is among those that rounding leaves as they are. -/
theorem clamp_roundedInt_units (hm : units? x = some m) : clamp (roundedInt 0 m) = m := by
  have hfits := fits_toModel x
  change unpackedUnits? x.toModel.unpack = some m at hm
  cases hu : x.toModel.unpack with
  | notANumber =>
      rw [hu] at hm
      cases hm
  | infinity s =>
      rw [hu] at hm
      cases hm
      rw [limit, roundedInt_magnitude s ⟨by decide, by decide, .inl le_rfl⟩]
      exact clamp_apply s le_rfl
  | zero s =>
      have hpos := limit_pos
      rw [hu] at hm
      cases hm
      rw [roundedInt_zero, clamp_of_lt (by omega) (by omega)]
  | finite s a e ha =>
      rw [hu] at hm hfits
      cases hm
      rw [roundedInt_magnitude s hfits.1, clamp_magnitude s hfits.1 hfits.2]

theorem unpack_eq_infinity (hx : x.isFinite = false) (hm : units? x = some m) (h : 0 ≤ m) :
    x.toModel.unpack = .infinity .positive ∧ m = limit := by
  have hpos := limit_pos
  obtain ⟨s, hs⟩ := exists_unpack_eq_infinity hx hm
  rw [units?, hs] at hm
  cases hm
  cases s with
  | positive => exact ⟨hs, rfl⟩
  | negative =>
      rw [Sign.apply] at h
      omega

/-- To infinity nothing can be added but what is below zero without end. -/
theorem add_infinity {v : UnpackedFloat} (f : Format) (hv : unpackedUnits? v = some n)
    (hn : 0 ≤ n) :
    UnpackedFloat.add f (.infinity .positive) v = .infinity .positive ∧
      UnpackedFloat.add f v (.infinity .positive) = .infinity .positive := by
  cases v with
  | notANumber => cases hv
  | infinity t =>
      cases t with
      | positive => exact ⟨rfl, rfl⟩
      | negative =>
          have hpos := limit_pos
          have hvalue : Sign.negative.apply limit = n := Option.some.inj hv
          rw [Sign.apply] at hvalue
          omega
  | _ => exact ⟨rfl, rfl⟩

/-- Two numbers that are not negative have a sum, be it infinite. -/
theorem units?_add_of_nonneg (hm : units? x = some m) (hn : units? y = some n) (hm₀ : 0 ≤ m)
    (hn₀ : 0 ≤ n) : units? (x + y) = some (clamp (roundedInt 0 (m + n))) := by
  have hinfinity : units? (.ofModel (.pack (.infinity .positive))) = some (limit : ℤ) := by
    rw [units?_ofModel_pack (u := .infinity .positive) trivial]
    exact congrArg some (clamp_apply .positive le_rfl)
  have hsum : x + y = .ofModel (.pack (UnpackedFloat.add .binary64 x.toModel.unpack
      y.toModel.unpack)) := rfl
  cases hx : x.isFinite with
  | false =>
      obtain ⟨hu, rfl⟩ := unpack_eq_infinity hx hm hm₀
      rw [clamp_roundedInt_of_limit_le (by omega), ← hinfinity, hsum, hu, (add_infinity _ hn hn₀).1]
  | true =>
      cases hy : y.isFinite with
      | true => exact units?_add hx hy hm hn
      | false =>
          obtain ⟨hv, rfl⟩ := unpack_eq_infinity hy hn hn₀
          rw [clamp_roundedInt_of_limit_le (by omega), ← hinfinity, hsum, hv,
            (add_infinity _ hm hm₀).2]

/-! ## Squares -/

theorem limit_le_rounded_square : limit ≤ rounded 1074 (limit * limit) := by
  -- The exponent stays a variable, so that no power of this size is computed.
  obtain ⟨c, hc, hlimit⟩ : ∃ c, 1126 ≤ c ∧ limit = 2 ^ 52 * 2 ^ c :=
    ⟨(972 + 1074 : ℤ).toNat, by decide, rfl⟩
  have hsquare : limit * limit = 2 ^ 52 * 2 ^ (2 * c + 52) := by
    rw [hlimit, pow_add, two_mul, pow_add]
    ac_rfl
  have hkeep : nearest (2 ^ 52) 0 = 2 ^ 52 := nearest_mul_two_pow (2 ^ 52) 0
  rw [hsquare, rounded_mul_two_pow_eq (s := 0) (by decide) (by rw [Nat.log2_two_pow]; omega), hkeep,
    hlimit]
  exact Nat.mul_le_mul_left _ (Nat.pow_le_pow_right (by decide) (by omega))

/-- The square of a number, which is infinite from some size on. -/
theorem units?_mul_self (hm : units? x = some m) :
    units? (x * x) = some (clamp (roundedInt 1074 (m * m))) := by
  cases hx : x.isFinite with
  | true => exact units?_mul hx hx hm hm
  | false =>
      have hpos := limit_pos
      obtain ⟨s, hs⟩ := exists_unpack_eq_infinity hx hm
      have hunits : s.apply limit = m := by
        rw [units?, hs] at hm
        exact Option.some.inj hm
      have hsquare : m * m = (limit * limit : ℕ) := by
        rw [← hunits, apply_mul_apply]
        cases s <;> rfl
      have hmagnitude : (if 0 < m then m else -m) = limit := by
        rw [← hunits]
        cases s with
        | negative => rw [Sign.apply, if_neg (by omega), neg_neg]
        | positive => rw [Sign.apply, if_pos (by omega)]
      have hrounded : roundedInt 1074 (limit * limit : ℕ) = rounded 1074 (limit * limit) :=
        roundedInt_apply 1074 .positive _
      rw [units?_mul_of_not_isFinite hx hm hm, if_neg (hunits ▸ ne_zero_of_apply hpos), hmagnitude,
        hsquare, hrounded]
      exact congrArg some (clamp_apply .positive limit_le_rounded_square).symm

/-! ## Order -/

theorem nonneg_iff : 0 ≤ x ↔ ∃ m, units? x = some m ∧ 0 ≤ m := by
  rw [le_iff, units?_zero]
  constructor
  · rintro ⟨z, m, hz, hm, hle⟩
    cases hz
    exact ⟨m, hm, hle⟩
  · rintro ⟨m, hm, hle⟩
    exact ⟨0, m, rfl, hm, hle⟩

theorem clamp_roundedInt_mono (k : ℕ) (h : m ≤ n) :
    clamp (roundedInt k m) ≤ clamp (roundedInt k n) :=
  clamp_mono (roundedInt_mono k h)

theorem clamp_roundedInt_nonneg (k : ℕ) (h : 0 ≤ m) : 0 ≤ clamp (roundedInt k m) := by
  have hpos := limit_pos
  have hle := clamp_roundedInt_mono k h
  rwa [roundedInt_zero, clamp_of_lt (by omega) (by omega)] at hle

theorem zero_le_add (hx : 0 ≤ x) (hy : 0 ≤ y) : 0 ≤ x + y := by
  obtain ⟨m, hm, hm₀⟩ := nonneg_iff.mp hx
  obtain ⟨n, hn, hn₀⟩ := nonneg_iff.mp hy
  exact nonneg_iff.mpr ⟨_, units?_add_of_nonneg hm hn hm₀ hn₀,
    clamp_roundedInt_nonneg 0 (by omega)⟩

/-- No part of a sum exceeds the sum. -/
theorem le_add_of_nonneg (hx : 0 ≤ x) (hy : 0 ≤ y) : x ≤ x + y ∧ y ≤ x + y := by
  obtain ⟨m, hm, hm₀⟩ := nonneg_iff.mp hx
  obtain ⟨n, hn, hn₀⟩ := nonneg_iff.mp hy
  have hsum := units?_add_of_nonneg hm hn hm₀ hn₀
  rw [le_iff_of_units hm hsum, le_iff_of_units hn hsum]
  constructor
  · calc m = clamp (roundedInt 0 m) := (clamp_roundedInt_units hm).symm
      _ ≤ clamp (roundedInt 0 (m + n)) := clamp_roundedInt_mono 0 (by omega)
  · calc n = clamp (roundedInt 0 n) := (clamp_roundedInt_units hn).symm
      _ ≤ clamp (roundedInt 0 (m + n)) := clamp_roundedInt_mono 0 (by omega)

/-- A zero adds nothing, on either side. -/
theorem add_alike_of_zero (hx : 0 ≤ x) (hy : units? y = some 0) :
    Alike (x + y) x ∧ Alike (y + x) x := by
  obtain ⟨m, hm, hm₀⟩ := nonneg_iff.mp hx
  have hkeep := (congrArg some (clamp_roundedInt_units hm)).trans hm.symm
  constructor
  · rw [Alike, units?_add_of_nonneg hm hy hm₀ le_rfl, add_zero, hkeep]
  · rw [Alike, units?_add_of_nonneg hy hm le_rfl hm₀, zero_add, hkeep]

theorem zero_le_mul_self (hx : (x == x) = true) : 0 ≤ x * x := by
  obtain ⟨m, hm, -⟩ := beq_iff.mp hx
  exact nonneg_iff.mpr ⟨_, units?_mul_self hm, clamp_roundedInt_nonneg _ (mul_self_nonneg m)⟩

/-- A square grows with the magnitude of its root. -/
theorem mul_self_le_mul_self_of_units (hm : units? x = some m) (hn : units? y = some n)
    (h : m.natAbs ≤ n.natAbs) : x * x ≤ y * y := by
  rw [le_iff_of_units (units?_mul_self hm) (units?_mul_self hn)]
  exact clamp_roundedInt_mono 1074 (Int.natAbs_le_iff_mul_self_le.mp h)

theorem natAbs_clamp_roundedInt_mono (k : ℕ) (h : m.natAbs ≤ n.natAbs) :
    (clamp (roundedInt k m)).natAbs ≤ (clamp (roundedInt k n)).natAbs := by
  have hpos := limit_pos
  have hrounded := rounded_mono k h
  simp only [clamp, roundedInt]
  split_ifs <;> omega

/-- What lies between two finite floats is finite and no farther from the one than the other is. -/
theorem sub_mul_self_le_of_between {o : Float} {k : ℤ} (ho : o.isFinite = true)
    (hy : y.isFinite = true) (hk : units? o = some k) (hm : units? x = some m)
    (hn : units? y = some n) (h : k ≤ m ∧ m ≤ n ∨ n ≤ m ∧ m ≤ k) :
    x.isFinite = true ∧ (x - o) * (x - o) ≤ (y - o) * (y - o) := by
  have hk' := (isFinite_iff_of_units hk).mp ho
  have hn' := (isFinite_iff_of_units hn).mp hy
  have hx : x.isFinite = true := (isFinite_iff_of_units hm).mpr ⟨by omega, by omega⟩
  exact ⟨hx, mul_self_le_mul_self_of_units (units?_sub hx ho hm hk) (units?_sub hy ho hn hk)
    (natAbs_clamp_roundedInt_mono 0 (by omega))⟩

/-! ## Neighbours -/

/-- `y` is the first float above `x`. -/
structure IsNext (x y : Float) : Prop where
  lt : x < y
  least {z : Float} : x < z → y ≤ z

/-- `y` is the first float below `x`. -/
structure IsPrevious (x y : Float) : Prop where
  lt : y < x
  greatest {z : Float} : z < x → z ≤ y

theorem exists_isNext {z : Float} (h : x < z) : ∃ y, IsNext x y := by
  have hbounded : ∃ b, ∀ k, (∃ z, units? z = some k ∧ x < z) → b ≤ k :=
    ⟨-limit, fun k ⟨z, hk, _⟩ => (units?_bounds hk).1⟩
  obtain ⟨_, k, -, hk, -⟩ := lt_iff.mp h
  obtain ⟨n, ⟨y, hn, hlt⟩, hleast⟩ := Int.exists_least_of_bdd hbounded ⟨k, z, hk, h⟩
  refine ⟨y, hlt, fun {z} hz => ?_⟩
  obtain ⟨_, k, -, hk, -⟩ := lt_iff.mp hz
  exact (le_iff_of_units hn hk).mpr (hleast k ⟨z, hk, hz⟩)

theorem exists_isPrevious {z : Float} (h : z < x) : ∃ y, IsPrevious x y := by
  have hbounded : ∃ b, ∀ k, (∃ z, units? z = some k ∧ z < x) → k ≤ b :=
    ⟨limit, fun k ⟨z, hk, _⟩ => (units?_bounds hk).2⟩
  obtain ⟨k, _, hk, -, -⟩ := lt_iff.mp h
  obtain ⟨n, ⟨y, hn, hlt⟩, hgreatest⟩ := Int.exists_greatest_of_bdd hbounded ⟨k, z, hk, h⟩
  refine ⟨y, hlt, fun {z} hz => ?_⟩
  obtain ⟨k, _, hk, -, -⟩ := lt_iff.mp hz
  exact (le_iff_of_units hk hn).mpr (hgreatest k ⟨z, hk, hz⟩)

end Sums

end Binary64

open Binary64

namespace Vec3

variable {v : Vec3 Float}

theorem zero_le_dot_self (h : ∀ i, (v.get i == v.get i) = true) : 0 ≤ v.dot v :=
  zero_le_add (zero_le_add (zero_le_mul_self (h .x)) (zero_le_mul_self (h .y)))
    (zero_le_mul_self (h .z))

/-- The sum of squares starts from zero, which changes nothing. -/
theorem normSquared_alike_dot (h : ∀ i, (v.get i == v.get i) = true) :
    Alike v.normSquared (v.dot v) :=
  (add_alike_of_zero (zero_le_dot_self h) units?_zero).2

theorem get_mul_self_le_normSquared (h : ∀ i, (v.get i == v.get i) = true) (i : Axis) :
    v.get i * v.get i ≤ v.normSquared := by
  have hx := zero_le_mul_self (h .x)
  have hy := zero_le_mul_self (h .y)
  have hz := zero_le_mul_self (h .z)
  have hxy := Binary64.le_add_of_nonneg hx hy
  have hxyz := Binary64.le_add_of_nonneg (zero_le_add hx hy) hz
  rw [(Alike.refl _).le_iff (normSquared_alike_dot h)]
  cases i with
  | x => exact Binary64.le_trans hxy.1 hxyz.1
  | y => exact Binary64.le_trans hxy.2 hxyz.1
  | z => exact hxyz.2

/-- Along an axis the sum of squares is the one square. -/
theorem normSquared_alike (i : Axis) (hi : (v.get i == v.get i) = true)
    (h : ∀ j, j ≠ i → units? (v.get j) = some 0) : Alike v.normSquared (v.get i * v.get i) := by
  have hself : ∀ j, (v.get j == v.get j) = true := by
    intro j
    by_cases hj : j = i
    · rwa [hj]
    · exact beq_iff.mpr ⟨0, h j hj, h j hj⟩
  have hzero : ∀ j, j ≠ i → units? (v.get j * v.get j) = some 0 := fun j hj =>
    units?_zero_mul (h j hj) (isFinite_of_units_zero (h j hj))
  have hsquare := zero_le_mul_self hi
  refine (normSquared_alike_dot hself).trans ?_
  cases i with
  | x =>
      have hxy := (add_alike_of_zero hsquare (hzero .y (by decide))).1
      exact (hxy.add (.refl _)).trans (add_alike_of_zero hsquare (hzero .z (by decide))).1
  | y =>
      have hxy := (add_alike_of_zero hsquare (hzero .x (by decide))).2
      exact (hxy.add (.refl _)).trans (add_alike_of_zero hsquare (hzero .z (by decide))).1
  | z =>
      have hxy := units?_zero_add (hzero .x (by decide)) (hzero .y (by decide))
      exact (add_alike_of_zero hsquare hxy).2

end Vec3

end SolidSurface
