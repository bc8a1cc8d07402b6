import SolidSurface.Proofs.Binary64.Precision
import SolidSurface.Proofs.Solid.Bounds

/-! # The box of a ball in binary floating point

A ball compares squares, while its box adds the radius to the center and takes it off. The two round
apart, so there are balls that hold points outside of their boxes. Both sides are monotone along an
axis, however, so whether a ball does is decided by the first floats beyond its box.
-/

namespace SolidSurface

/-! ## One coordinate in the place of another -/

namespace Vec3

variable {α : Type}

/-- The point that differs from `v` in the coordinate `x` along the axis `a`. -/
def withCoordinate (v : Vec3 α) (a : Axis) (x : α) : Vec3 α :=
  match a with
  | .x => { v with x := x }
  | .y => { v with y := x }
  | .z => { v with z := x }

theorem get_withCoordinate (v : Vec3 α) (a : Axis) (x : α) : (v.withCoordinate a x).get a = x := by
  cases a <;> rfl

theorem get_withCoordinate_of_ne {a b : Axis} (h : b ≠ a) (v : Vec3 α) (x : α) :
    (v.withCoordinate a x).get b = v.get b := by
  cases a <;> cases b <;> first | rfl | exact absurd rfl h

end Vec3

open Binary64

namespace Ball

theorem make_eq_ok {α : Type} [Scalar α] {c : Point α} {r : α} {s : Ball α}
    (h : make c r = .ok s) : c.isFinite = true ∧ Scalar.isPositive r = true ∧ s = ⟨c, r⟩ := by
  rw [make, requireFinite, requireRadius] at h
  cases hc : c.isFinite with
  | false =>
      rw [hc] at h
      cases h
  | true =>
      cases hr : Scalar.isPositive r with
      | false =>
          rw [hc, hr] at h
          cases h
      | true =>
          rw [hc, hr] at h
          cases h
          exact ⟨rfl, rfl, rfl⟩

theorem get_lower {α : Type} [Scalar α] (s : Ball α) (a : Axis) :
    s.bounds.lower.get a = s.center.get a - s.radius := by
  rw [bounds, Vec3.get_sub, Vec3.get_repeated]

theorem get_upper {α : Type} [Scalar α] (s : Ball α) (a : Axis) :
    s.bounds.upper.get a = s.center.get a + s.radius := by
  rw [bounds, Vec3.get_add, Vec3.get_repeated]

variable {c p : Point Float} {r x : Float} {s : Ball Float} {a : Axis}

/-- The measurements that a ball is made of. -/
structure IsMeasured (s : Ball Float) : Prop where
  center (a : Axis) : (s.center.get a).isFinite = true
  radius : s.radius.isFinite = true
  radius_pos : 0 < s.radius

theorem isMeasured_of_make (h : make c r = .ok s) : s.IsMeasured := by
  obtain ⟨hc, hr, rfl⟩ := make_eq_ok h
  rw [Scalar.isPositive, Bool.and_eq_true, decide_eq_true_iff] at hr
  exact ⟨Vec3.all_eq_true_iff.mp hc, hr.1, hr.2⟩

/-- `x` is the first float beyond the box of a ball along the axis `a`, on one of its sides. -/
def IsFirstBeyond (s : Ball Float) (a : Axis) (x : Float) : Prop :=
  IsNext (s.bounds.upper.get a) x ∨ IsPrevious (s.bounds.lower.get a) x

/-- The box reaches from the center to both sides. -/
theorem IsMeasured.bounds_spec (h : s.IsMeasured) (a : Axis) : ∃ l k u,
    units? (s.bounds.lower.get a) = some l ∧ units? (s.center.get a) = some k ∧
      units? (s.bounds.upper.get a) = some u ∧ l ≤ k ∧ k ≤ u := by
  obtain ⟨z, n, hz, hn, hlt⟩ := lt_iff.mp h.radius_pos
  cases units?_zero.symm.trans hz
  obtain ⟨k, hk, -⟩ := isFinite_iff.mp (h.center a)
  refine ⟨_, k, _, get_lower s a ▸ units?_sub (h.center a) h.radius hk hn, hk,
    get_upper s a ▸ units?_add (h.center a) h.radius hk hn, ?_, ?_⟩
  · calc clamp (roundedInt 0 (k - n)) ≤ clamp (roundedInt 0 k) := clamp_roundedInt_mono 0 (by omega)
      _ = k := clamp_roundedInt_units hk
  · calc k = clamp (roundedInt 0 k) := (clamp_roundedInt_units hk).symm
      _ ≤ clamp (roundedInt 0 (k + n)) := clamp_roundedInt_mono 0 (by omega)

theorem contains_iff_le : s.contains p = true ↔
    (p - s.center).normSquared ≤ s.radius * s.radius :=
  decide_eq_true_iff

/-- The differences of finite points are numbers. -/
theorem IsMeasured.sub_beq_self (h : s.IsMeasured) (hp : p.isFinite = true) (b : Axis) :
    ((p - s.center).get b == (p - s.center).get b) = true := by
  obtain ⟨m, hm, -⟩ := exists_units?_sub (Vec3.all_eq_true_iff.mp hp b) (h.center b)
  rw [← Vec3.get_sub] at hm
  exact beq_iff.mpr ⟨m, hm, hm⟩

/-- On the line through the center along an axis a ball compares one square. -/
theorem IsMeasured.contains_withCoordinate_iff (h : s.IsMeasured) (hx : x.isFinite = true) :
    s.contains (s.center.withCoordinate a x) = true ↔
      (x - s.center.get a) * (x - s.center.get a) ≤ s.radius * s.radius := by
  have hget : (s.center.withCoordinate a x - s.center).get a = x - s.center.get a := by
    rw [Vec3.get_sub, Vec3.get_withCoordinate]
  obtain ⟨m, hm, -⟩ := exists_units?_sub hx (h.center a)
  have hnorm := Vec3.normSquared_alike (v := s.center.withCoordinate a x - s.center) a
    (by rw [hget]; exact beq_iff.mpr ⟨m, hm, hm⟩) (fun b hb => by
      rw [Vec3.get_sub, Vec3.get_withCoordinate_of_ne hb]
      exact units?_sub_alike (h.center b) (.refl _))
  rw [hget] at hnorm
  rw [contains_iff_le]
  exact hnorm.le_iff (.refl _)

/-- A finite point outside the box is no nearer, along some axis, than the first float beyond it. -/
theorem IsMeasured.exists_isFirstBeyond (h : s.IsMeasured) (hp : p.isFinite = true)
    (hout : ¬s.bounds.contains p = true) : ∃ a x, x.isFinite = true ∧ s.IsFirstBeyond a x ∧
      (x - s.center.get a) * (x - s.center.get a) ≤
        (p.get a - s.center.get a) * (p.get a - s.center.get a) := by
  rw [Box.contains_iff, not_forall] at hout
  obtain ⟨a, ha⟩ := hout
  obtain ⟨l, k, u, hl, hk, hu, hlk, hku⟩ := h.bounds_spec a
  have hpa : (p.get a).isFinite = true := Vec3.all_eq_true_iff.mp hp a
  obtain ⟨n, hn, -⟩ := isFinite_iff.mp hpa
  rw [le_iff_of_units hl hn, le_iff_of_units hn hu] at ha
  by_cases hlow : l ≤ n
  · have hlt : s.bounds.upper.get a < p.get a := (lt_iff_of_units hu hn).mpr (by omega)
    obtain ⟨x, hnext⟩ := exists_isNext hlt
    obtain ⟨_, m, hu', hm, hum⟩ := lt_iff.mp hnext.lt
    cases hu.symm.trans hu'
    have hmn := (le_iff_of_units hm hn).mp (hnext.least hlt)
    obtain ⟨hx, hle⟩ := sub_mul_self_le_of_between (h.center a) hpa hk hm hn (by omega)
    exact ⟨a, x, hx, .inl hnext, hle⟩
  · have hlt : p.get a < s.bounds.lower.get a := (lt_iff_of_units hn hl).mpr (not_le.mp hlow)
    obtain ⟨x, hprevious⟩ := exists_isPrevious hlt
    obtain ⟨m, _, hm, hl', hml⟩ := lt_iff.mp hprevious.lt
    cases hl.symm.trans hl'
    have hnm := (le_iff_of_units hn hm).mp (hprevious.greatest hlt)
    obtain ⟨hx, hle⟩ := sub_mul_self_le_of_between (h.center a) hpa hk hm hn (by omega)
    exact ⟨a, x, hx, .inr hprevious, hle⟩

/-- The first floats beyond the box are outside of it. -/
theorem IsFirstBeyond.not_contains (h : s.IsFirstBeyond a x) :
    ¬s.bounds.contains (s.center.withCoordinate a x) = true := by
  intro hin
  have hbounds := Box.contains_iff.mp hin a
  rw [Vec3.get_withCoordinate] at hbounds
  rcases h with hnext | hprevious
  · exact not_lt_of_le hbounds.2 hnext.lt
  · exact not_lt_of_le hbounds.1 hprevious.lt

theorem isFinite_withCoordinate {v : Point Float} (hv : ∀ b, (v.get b).isFinite = true)
    (hx : x.isFinite = true) : (v.withCoordinate a x).isFinite = true := by
  refine Vec3.all_eq_true_iff.mpr fun b => ?_
  by_cases hb : b = a
  · rw [hb, Vec3.get_withCoordinate]
    exact hx
  · rw [Vec3.get_withCoordinate_of_ne hb]
    exact hv b

/-! ## What is beyond the box -/

/-- No finite point outside of the box is in the ball. -/
def KeepsWithinBox (s : Ball Float) : Prop :=
  ∀ p : Point Float, p.isFinite = true → s.contains p = true → s.bounds.contains p = true

theorem IsMeasured.keepsWithinBox_iff (h : s.IsMeasured) : s.KeepsWithinBox ↔
    ∀ a x, x.isFinite = true → s.IsFirstBeyond a x →
      s.radius * s.radius < (x - s.center.get a) * (x - s.center.get a) := by
  constructor
  · intro hwithin a x hx hbeyond
    obtain ⟨n, hn, -⟩ := isFinite_iff.mp h.radius
    obtain ⟨m, hm, -⟩ := exists_units?_sub hx (h.center a)
    have hout : ¬s.contains (s.center.withCoordinate a x) = true := fun hin =>
      hbeyond.not_contains (hwithin _ (isFinite_withCoordinate h.center hx) hin)
    rw [h.contains_withCoordinate_iff hx] at hout
    rw [lt_iff_of_units (units?_mul_self hn) (units?_mul_self hm)]
    rwa [le_iff_of_units (units?_mul_self hm) (units?_mul_self hn), not_le] at hout
  · intro hbeyond p hp hin
    by_contra hout
    obtain ⟨a, x, hx, hfirst, hle⟩ := h.exists_isFirstBeyond hp hout
    have hsquare := Vec3.get_mul_self_le_normSquared (h.sub_beq_self hp) a
    rw [Vec3.get_sub] at hsquare
    exact not_lt_of_le (Binary64.le_trans hle (Binary64.le_trans hsquare (contains_iff_le.mp hin)))
      (hbeyond a x hx hfirst)

/-! ## Radii with a normal square -/

/-- The square of the radius is a finite number of full precision. -/
structure HasNormalSquare (s : Ball Float) : Prop where
  minNormal_lt : Scalar.minNormal < s.radius * s.radius
  isFinite : (s.radius * s.radius).isFinite = true

/-- Such a radius is read back from its square, so what a ball holds is within the radius of the
center along each axis, as far as the difference of two floats can tell. -/
theorem HasNormalSquare.reach (hnormal : s.HasNormalSquare) (h : s.IsMeasured)
    (hp : p.isFinite = true) (hin : s.contains p = true) (a : Axis) :
    -s.radius ≤ p.get a - s.center.get a ∧ p.get a - s.center.get a ≤ s.radius := by
  obtain ⟨_, k, hz, hk, hpos⟩ := lt_iff.mp h.radius_pos
  cases units?_zero.symm.trans hz
  obtain ⟨m, hm, -⟩ := beq_iff.mp (h.sub_beq_self hp a)
  have hsquare := Binary64.le_trans (Vec3.get_mul_self_le_normSquared (h.sub_beq_self hp) a)
    (contains_iff_le.mp hin)
  have hroot := natAbs_le_of_mul_self_le hm hk hnormal.minNormal_lt hnormal.isFinite hsquare
  rw [Vec3.get_sub] at hm
  rw [le_iff_of_units (units?_neg hk) hm, le_iff_of_units hm hk]
  omega

/-- Around the origin no difference is rounded. -/
theorem HasNormalSquare.keepsWithinBox (hnormal : s.HasNormalSquare) (h : s.IsMeasured)
    (horigin : ∀ a, (s.center.get a == 0) = true) : s.KeepsWithinBox := by
  intro p hp hin
  obtain ⟨k, hk, -⟩ := isFinite_iff.mp h.radius
  refine Box.contains_iff.mpr fun a => ?_
  obtain ⟨z, hzero, hz⟩ := beq_iff.mp (horigin a)
  cases units?_zero.symm.trans hz
  obtain ⟨n, hn, -⟩ := isFinite_iff.mp (Vec3.all_eq_true_iff.mp hp a)
  have hpoint : Alike (p.get a) (p.get a - s.center.get a) := by
    rw [Alike, units?_sub (Vec3.all_eq_true_iff.mp hp a) (h.center a) hn hzero, sub_zero,
      clamp_roundedInt_units hn, hn]
  have hlower : Alike (s.center.get a - s.radius) (-s.radius) := by
    rw [Alike, units?_sub (h.center a) h.radius hzero hk, zero_sub, units?_neg hk,
      clamp_roundedInt_units (units?_neg hk)]
  have hupper : Alike (s.center.get a + s.radius) s.radius := by
    rw [Alike, units?_add (h.center a) h.radius hzero hk, zero_add, clamp_roundedInt_units hk, hk]
  rw [get_lower, get_upper, hlower.le_iff hpoint, hpoint.le_iff hupper]
  exact hnormal.reach h hp hin a

/-! ## The contract -/

/-- A ball keeps within its box exactly if it leaves out the first floats beyond the box along each
axis. It need not: rounding, a square that vanishes and a square that is infinite let them in. If
the square of the radius is normal and finite, rounding alone does, and not around the origin. -/
theorem within_box_contract (h : make c r = .ok s) :
    (s.KeepsWithinBox ↔ ∀ a x, x.isFinite = true → s.IsFirstBeyond a x →
      r * r < (x - c.get a) * (x - c.get a)) ∧
    (s.HasNormalSquare → ∀ p : Point Float, p.isFinite = true → s.contains p = true →
      ∀ a, -r ≤ p.get a - c.get a ∧ p.get a - c.get a ≤ r) ∧
    (s.HasNormalSquare → (∀ a, (c.get a == 0) = true) → s.KeepsWithinBox) := by
  have hs := isMeasured_of_make h
  obtain ⟨-, -, rfl⟩ := make_eq_ok h
  exact ⟨hs.keepsWithinBox_iff, fun hnormal _ hp hin => hnormal.reach hs hp hin,
    fun hnormal => hnormal.keepsWithinBox hs⟩

/-- The unit ball around a point at distance one from the origin. Its box ends at the origin, and
the least positive float is as far from the center as the origin is, once rounded. -/
theorem within_box_contract_least : ∃ s : Ball Float, make ⟨-1.0, 0.0, 0.0⟩ 1.0 = .ok s ∧
    s.HasNormalSquare ∧ ¬s.KeepsWithinBox := by
  have hmake : make ⟨-1.0, 0.0, 0.0⟩ (1.0 : Float) = .ok ⟨⟨-1.0, 0.0, 0.0⟩, 1.0⟩ := by
    with_unfolding_all rfl
  have hupper : units? ((-1.0 : Float) + 1.0) = some 0 := by decide +kernel
  have hleast : units? (Float.ofBits 1) = some 1 := by decide +kernel
  have hnext : IsNext ((-1.0 : Float) + 1.0) (Float.ofBits 1) := by
    refine ⟨(lt_iff_of_units hupper hleast).mpr one_pos, fun {z} hz => ?_⟩
    obtain ⟨m, n, hm, hn, hlt⟩ := lt_iff.mp hz
    cases hupper.symm.trans hm
    exact (le_iff_of_units hleast hn).mpr hlt
  refine ⟨_, hmake, ⟨by decide +kernel, by decide +kernel⟩, fun hwithin => ?_⟩
  have hlt := (within_box_contract hmake).1.mp hwithin .x (Float.ofBits 1) (by decide +kernel)
    (.inl hnext)
  exact absurd hlt (by decide +kernel)

end Ball

end SolidSurface
