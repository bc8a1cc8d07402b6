import SolidSurface.Proofs.Closest
import SolidSurface.Proofs.Scalar.Checked
import SolidSurface.Proofs.Scalar.Fraction

/-! # Projection onto a triangle without division by zero

Computed with checked division, the closest point is undefined where a quotient by zero goes into
it. The tests before a quotient nearly rule that out: with the divisor of a side at zero the point
would have passed an earlier test. Only the first side is divided by before the others have been
looked at, and it alone can be without a length there.
-/

namespace SolidSurface

variable {α : Type} [FieldScalar α]

theorem Vec3.sub_self_dot (v w : Vec3 α) : (v - v).dot w = 0 := by
  simp only [dot, x_sub, y_sub, z_sub, sub_self, zero_mul, add_zero]

theorem Vec3.dot_sub_self (v w : Vec3 α) : v.dot (w - w) = 0 := by
  simp only [dot, x_sub, y_sub, z_sub, sub_self, mul_zero, add_zero]

namespace Triangle

variable {t : Triangle α} {p : Point α} {A B C x y : α}

namespace Products

variable (h : t.Products p A B C x y)

include h

theorem closestPoint_checked_eq :
    t.checked.closestPoint p.checked =
      if x ≤ 0 ∧ y ≤ 0 then t.a.checked
      else if A ≤ x ∧ y - B ≤ x - A then t.b.checked
      else if A * y ≤ B * x ∧ 0 ≤ x ∧ x ≤ A then
        t.a.checked + (t.b - t.a).checked * (Checked.of x / Checked.of A)
      else if C ≤ y ∧ x - B ≤ y - C then t.c.checked
      else if C * x ≤ B * y ∧ 0 ≤ y ∧ y ≤ C then
        t.a.checked + (t.c - t.a).checked * (Checked.of y / Checked.of C)
      else if A * C - B * B - (A * y - B * x) ≤ C * x - B * y ∧ x - A ≤ y - B ∧ y - C ≤ x - B then
        t.b.checked +
          (t.c - t.b).checked * (Checked.of (y - B - (x - A)) / Checked.of (A - 2 * B + C))
      else if |A * C - B * B| ≤ Scalar.minNormal then t.a.checked
      else t.a.checked +
        (t.b - t.a).checked * (Checked.of (C * x - B * y) / Checked.of (A * C - B * B)) +
        (t.c - t.a).checked * (Checked.of (A * y - B * x) / Checked.of (A * C - B * B)) := by
  obtain ⟨hvc, hvb, hva, hbc, hsum⟩ := tests_eq A B C x y
  have ha : t.checked.a = t.a.checked := rfl
  have hb : t.checked.b = t.b.checked := rfl
  have hc : t.checked.c = t.c.checked := rfl
  simp only [closestPoint, ha, hb, hc, Vec3.checked_sub, Vec3.dot_checked, Checked.of_mul,
    Checked.of_sub, Checked.of_add, Checked.abs_of, Checked.of_zero, Checked.of_minNormal,
    Checked.of_le_of, Vec3.dot_sub_origin _ p t.a t.b,
    Vec3.dot_sub_origin _ p t.a t.c, h.bb, h.bc, h.cb, h.cc, h.bp, h.cp, hvc, hvb, hva, hbc, hsum,
    sub_sub_cancel, FieldScalar.abs_eq, sub_nonneg, sub_nonpos]

/-! ## Sides without length -/

theorem b_eq_a_iff : t.b = t.a ↔ A = 0 := by
  rw [← h.bb]
  refine ⟨fun heq => ?_, fun hzero => Vec3.eq_of_normSquared_sub_le ?_⟩
  · rw [heq, Vec3.dot_sub_self]
  · rw [Vec3.normSquared, zero_add, hzero]

theorem c_eq_a (hC : C = 0) : t.c = t.a := by
  refine Vec3.eq_of_normSquared_sub_le ?_
  rw [Vec3.normSquared, zero_add, h.cc, hC]

theorem c_eq_b (hE : A - 2 * B + C = 0) : t.c = t.b := by
  refine Vec3.eq_of_normSquared_sub_le (le_of_eq ?_)
  have hsplit : (t.c - t.b).normSquared = (t.b - t.a).dot (t.b - t.a) -
      2 * (t.b - t.a).dot (t.c - t.a) + (t.c - t.a).dot (t.c - t.a) := by
    simp only [Vec3.normSquared, Vec3.dot, Vec3.x_sub, Vec3.y_sub, Vec3.z_sub]
    ring
  rw [hsplit, h.bb, h.bc, h.cc, hE]

/-- No quotient by zero goes into the closest point, unless the first side has no length and the
point lies on the side of the third corner. -/
theorem closestPoint_checked (hmin : 0 ≤ (Scalar.minNormal : α)) (hA : A = 0 → y ≤ 0) :
    t.checked.closestPoint p.checked = (t.closestPoint p).checked := by
  rw [h.closestPoint_checked_eq, h.closestPoint_eq]
  split_ifs with hfirst hsecond hab hthird hac hbc hflat
  · rfl
  · rfl
  · have hA : A ≠ 0 := fun hzero => hfirst ⟨hzero ▸ hab.2.2, hA hzero⟩
    rw [Checked.of_div_of_ne_zero _ hA]
    rfl
  · rfl
  · -- With the third corner at the first one, the point would belong to one end of the first side
    -- or to that side.
    have hC : C ≠ 0 := by
      intro hzero
      obtain rfl : y = 0 := le_antisymm (hzero ▸ hac.2.2) hac.2.1
      obtain rfl : B = 0 := by rw [← h.bc, h.c_eq_a hzero, Vec3.dot_sub_self]
      have hx : 0 < x := not_le.mp fun hx => hfirst ⟨hx, le_rfl⟩
      have hxA : x < A := not_le.mp fun hxA => hsecond ⟨hxA, by linarith⟩
      exact hab ⟨by rw [mul_zero, zero_mul], hx.le, hxA.le⟩
    rw [Checked.of_div_of_ne_zero _ hC]
    rfl
  · -- Likewise with the third corner at the second one.
    have hE : A - 2 * B + C ≠ 0 := by
      intro hzero
      have heq := h.c_eq_b hzero
      obtain rfl : B = A := by rw [← h.bc, heq, h.bb]
      obtain rfl : y = x := by rw [← h.cp, heq, h.bp]
      have hx : 0 < y := not_le.mp fun hx => hfirst ⟨hx, hx⟩
      have hxA : y < B := not_le.mp fun hxA => hsecond ⟨hxA, le_rfl⟩
      exact hab ⟨le_rfl, hx.le, hxA.le⟩
    rw [Checked.of_div_of_ne_zero _ hE]
    rfl
  · rfl
  · have hW : A * C - B * B ≠ 0 := fun hzero => hflat (by rwa [hzero, abs_zero])
    rw [Checked.of_div_of_ne_zero _ hW, Checked.of_div_of_ne_zero _ hW]
    rfl

/-- Zero is divided by the length of a first side that has none. -/
theorem get_closestPoint_checked (hA : A = 0) (hy : 0 < y) (i : Axis) :
    (t.checked.closestPoint p.checked).get i = .undefined := by
  have heq := h.b_eq_a_iff.mpr hA
  obtain rfl : x = 0 := by rw [← h.bp, heq, Vec3.sub_self_dot]
  obtain rfl : B = 0 := by rw [← h.bc, heq, Vec3.sub_self_dot]
  subst hA
  rw [h.closestPoint_checked_eq, if_neg (fun hfirst => absurd hfirst.2 (not_le.mpr hy)),
    if_neg (fun hsecond => absurd hsecond.2 (by simpa using hy)), if_pos (by simp),
    Checked.of_div_zero]
  exact Vec3.get_add_scale_undefined _ _ i

end Products

/-- For a triangle with a normal the closest point is found without dividing by zero. It belongs to
the triangle, and none of its points is nearer. -/
theorem closestPoint_projects (hmin : 0 ≤ (Scalar.minNormal : α))
    (hnormal : Scalar.minNormal < t.cross.normSquared) (p : Point α) :
    t.normal? ≠ none ∧ t.checked.closestPoint p.checked = (t.closestPoint p).checked ∧
      t.IsNearest p (t.closestPoint p) := by
  refine ⟨normal?_ne_none_iff.mpr hnormal, ?_, closestPoint_isNearest hmin hnormal p⟩
  obtain ⟨A, B, C, x, y, h⟩ := t.exists_products p
  rw [cross, Vec3.normSquared_cross, h.bb, h.bc, h.cc] at hnormal
  obtain ⟨hA, -, -⟩ := h.sides_pos (hmin.trans_lt hnormal)
  exact h.closestPoint_checked hmin fun hzero => absurd hzero hA.ne'

/-- An obtuse triangle, and a point beyond its short side. -/
theorem closestPoint_projects_obtuse :
    let t : Triangle Fraction := ⟨⟨0, 0, 0⟩, ⟨4, 0, 0⟩, ⟨-1, 1, 0⟩⟩
    let p : Point Fraction := ⟨-1, 0, 1⟩
    t.checked.closestPoint p.checked = Vec3.checked ⟨-1 / 2, 1 / 2, 0⟩ ∧
      t.IsNearest p ⟨-1 / 2, 1 / 2, 0⟩ := by
  intro t p
  have hfoot : t.closestPoint p = ⟨-1 / 2, 1 / 2, 0⟩ := by decide +kernel
  obtain ⟨-, hchecked, hnearest⟩ := closestPoint_projects (t := t) (by decide +kernel)
    (by decide +kernel) p
  exact ⟨hfoot ▸ hchecked, hfoot ▸ hnearest⟩

end Triangle

end SolidSurface
