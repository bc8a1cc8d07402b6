import SolidSurface.Proofs.Binary64.Clipping
import SolidSurface.Proofs.Binary64.Coinciding
import SolidSurface.Proofs.Binary64.ZeroByZero
import SolidSurface.Proofs.ExactProjection

/-! # Triangles without area

The closest point of a triangle whose corners lie on a line is on one of its sides, with one
exception: when the first two corners coincide, points on the side of the third one are answered
with zero by zero.
-/

namespace SolidSurface.Triangle

open Binary64

/-! ## Points of sides -/

section Exact

variable {α : Type} [FieldScalar α] {t : Triangle α} {p q : Point α} {u A B C x y : α}

/-- The points of a side are reached from one end on the way to the other. -/
def HasSidePoint (t : Triangle α) (q : Point α) : Prop :=
  ∃ s ∈ t.sides, ∃ u : α, 0 ≤ u ∧ u ≤ 1 ∧ q = s.1 + (s.2 - s.1) * u

theorem hasSidePoint_ab (hu : 0 ≤ u) (hu' : u ≤ 1) : t.HasSidePoint (t.a + (t.b - t.a) * u) :=
  ⟨(t.a, t.b), by simp [sides], u, hu, hu', rfl⟩

theorem hasSidePoint_bc (hu : 0 ≤ u) (hu' : u ≤ 1) : t.HasSidePoint (t.b + (t.c - t.b) * u) :=
  ⟨(t.b, t.c), by simp [sides], u, hu, hu', rfl⟩

theorem hasSidePoint_ac (hu : 0 ≤ u) (hu' : u ≤ 1) : t.HasSidePoint (t.a + (t.c - t.a) * u) := by
  refine ⟨(t.c, t.a), by simp [sides], 1 - u, sub_nonneg.mpr hu', sub_le_self 1 hu,
    Vec3.ext_get fun i => ?_⟩
  simp only [Vec3.get_add, Vec3.get_scale, Vec3.get_sub]
  ring

theorem hasSidePoint_a (t : Triangle α) : t.HasSidePoint t.a := by
  have h := t.hasSidePoint_ab le_rfl zero_le_one
  rwa [← along_ab, along_zero_zero] at h

theorem hasSidePoint_b (t : Triangle α) : t.HasSidePoint t.b := by
  have h := t.hasSidePoint_ab zero_le_one le_rfl
  rwa [← along_ab, along_one_zero] at h

theorem hasSidePoint_c (t : Triangle α) : t.HasSidePoint t.c := by
  have h := t.hasSidePoint_ac zero_le_one le_rfl
  rwa [← along_ac, along_zero_one] at h

theorem Products.hasSidePoint_closestPoint (h : t.Products p A B C x y)
    (hmin : 0 ≤ (Scalar.minNormal : α)) (hflat : A * C - B * B = 0) :
    t.HasSidePoint (t.closestPoint p) := by
  rw [h.closestPoint_eq]
  split_ifs with hfirst hsecond hab hthird hac hbc hguard
  · exact t.hasSidePoint_a
  · exact t.hasSidePoint_b
  · obtain ⟨hu, hu'⟩ := div_mem_unit hab.2.1 hab.2.2
    exact hasSidePoint_ab hu hu'
  · exact t.hasSidePoint_c
  · obtain ⟨hu, hu'⟩ := div_mem_unit hac.2.1 hac.2.2
    exact hasSidePoint_ac hu hu'
  · obtain ⟨hu, hu'⟩ := div_mem_unit (x := y - B - (x - A)) (A := A - 2 * B + C)
      (by linarith) (by linarith)
    exact hasSidePoint_bc hu hu'
  · exact t.hasSidePoint_a
  · exact absurd (by rwa [hflat, abs_zero]) hguard

end Exact

/-! ## First corners that coincide, in floating point -/

section Rounded

variable {t : Triangle Float} {p : Point Float} (ha : t.a.isFinite = true)
  (hab : t.a.coincides t.b = true) (hp : (p - t.a).isFinite = true)

include ha hab in
theorem units?_side_eq_zero (i : Axis) : units? ((t.b - t.a).get i) = some 0 := by
  have hcorner := Vec3.alike_of_coincides hab i
  rw [Vec3.get_sub]
  exact units?_sub_alike (hcorner.isFinite_eq ▸ Vec3.all_eq_true_iff.mp ha i) hcorner.symm

include hab in
theorem alike_way (i : Axis) : Alike ((p - t.a).get i) ((p - t.b).get i) := by
  rw [Vec3.get_sub, Vec3.get_sub]
  exact (Alike.refl _).sub (Vec3.alike_of_coincides hab i)

include ha hab hp in
theorem units?_dot_side_eq_zero : units? ((t.b - t.a).dot (p - t.a)) = some 0 ∧
    units? ((t.b - t.a).dot (p - t.b)) = some 0 := by
  have hway := Vec3.all_eq_true_iff.mp hp
  exact ⟨Vec3.units?_dot_zero (units?_side_eq_zero ha hab) hway,
    Vec3.units?_dot_zero (units?_side_eq_zero ha hab) fun i =>
      (alike_way hab i).isFinite_eq ▸ hway i⟩

include ha hab hp

/-- On the side of the third corner the point is looked for on the first side, which is a point. -/
theorem closestPoint_eq_of_coincides (hy : ((t.c - t.a).dot (p - t.a)).isFinite = true)
    (hpos : 0 < (t.c - t.a).dot (p - t.a)) :
    t.closestPoint p = t.a + (t.b - t.a) *
      ((t.b - t.a).dot (p - t.a) / ((t.b - t.a).dot (p - t.a) - (t.b - t.a).dot (p - t.b))) := by
  obtain ⟨hd₁, hd₃⟩ := units?_dot_side_eq_zero ha hab hp
  obtain ⟨n, hd₂, -⟩ := isFinite_iff.mp hy
  have hn : 0 < n := (lt_iff_of_units units?_zero hd₂).mp hpos
  have hsame : Alike ((t.c - t.a).dot (p - t.a)) ((t.c - t.a).dot (p - t.b)) :=
    Vec3.alike_dot (alike_way hab)
  have hd₄ : units? ((t.c - t.a).dot (p - t.b)) = some n := hsame.symm.trans hd₂
  have hvc : units? ((t.b - t.a).dot (p - t.a) * (t.c - t.a).dot (p - t.b) -
      (t.b - t.a).dot (p - t.b) * (t.c - t.a).dot (p - t.a)) = some 0 := by
    have hleft := units?_zero_mul hd₁ (hsame.isFinite_eq ▸ hy)
    exact units?_sub_alike (isFinite_of_units_zero hleft)
      (hleft.trans (units?_zero_mul hd₃ hy).symm)
  simp only [closestPoint]
  rw [if_neg, if_neg, if_pos]
  · exact ⟨(le_iff_of_units hvc units?_scalar_zero).mpr le_rfl,
      (le_iff_of_units units?_scalar_zero hd₁).mpr le_rfl,
      (le_iff_of_units hd₃ units?_scalar_zero).mpr le_rfl⟩
  · exact fun hsecond => absurd ((le_iff_of_units hd₄ hd₃).mp hsecond.2) (not_le.mpr hn)
  · exact fun hfirst => absurd ((le_iff_of_units hd₂ units?_scalar_zero).mp hfirst.2) (not_le.mpr hn)

theorem closestPoint_notANumber (hy : ((t.c - t.a).dot (p - t.a)).isFinite = true)
    (hpos : 0 < (t.c - t.a).dot (p - t.a)) (i : Axis) :
    ((t.closestPoint p).get i == (t.closestPoint p).get i) = false := by
  obtain ⟨hd₁, hd₃⟩ := units?_dot_side_eq_zero ha hab hp
  have hquotient := units?_zero_div_zero hd₁
    (units?_sub_alike (isFinite_of_units_zero hd₁) (hd₁.trans hd₃.symm))
  rw [closestPoint_eq_of_coincides ha hab hp hy hpos, Vec3.get_add, Vec3.get_scale]
  exact beq_self_eq_false (units?_add_of_right_none _ (units?_mul_of_right_none _ hquotient))

theorem closestPoint_eq_a (hle : (t.c - t.a).dot (p - t.a) ≤ 0) : t.closestPoint p = t.a := by
  obtain ⟨hd₁, -⟩ := units?_dot_side_eq_zero ha hab hp
  obtain ⟨m, n, hd₂, hzero, hmn⟩ := le_iff.mp hle
  cases units?_zero.symm.trans hzero
  simp only [closestPoint]
  exact if_pos ⟨(le_iff_of_units hd₁ units?_scalar_zero).mpr le_rfl,
    (le_iff_of_units hd₂ units?_scalar_zero).mpr hmn⟩

end Rounded

/-- The closest point of a triangle without area is found without dividing by zero and lies on a
side, unless the first two corners coincide and the point is on the side of the third one. Then zero
is divided by zero, and all coordinates are undefined. In floating point they are no numbers in
that case, and otherwise the corner is found. -/
theorem closestPoint_flat {α : Type} [FieldScalar α] (hmin : 0 ≤ (Scalar.minNormal : α))
    {t : Triangle α} (hflat : t.cross = 0) (p : Point α) :
    (t.a = t.b ∧ 0 < (t.c - t.a).dot (p - t.a) →
      ∀ i, (t.checked.closestPoint p.checked).get i = .undefined) ∧
    (¬(t.a = t.b ∧ 0 < (t.c - t.a).dot (p - t.a)) →
      t.checked.closestPoint p.checked = (t.closestPoint p).checked ∧
        t.HasSidePoint (t.closestPoint p)) ∧
    ∀ (t : Triangle Float) (p : Point Float), t.a.isFinite = true → t.a.coincides t.b = true →
      (p - t.a).isFinite = true → ((t.c - t.a).dot (p - t.a)).isFinite = true →
      (0 < (t.c - t.a).dot (p - t.a) →
        ∀ i, ((t.closestPoint p).get i == (t.closestPoint p).get i) = false) ∧
      ((t.c - t.a).dot (p - t.a) ≤ 0 → t.closestPoint p = t.a) := by
  obtain ⟨A, B, C, x, y, h⟩ := t.exists_products p
  have hW : A * C - B * B = 0 := by
    rw [← h.bb, ← h.bc, ← h.cc, ← Vec3.normSquared_cross, ← cross, hflat]
    simp [Vec3.normSquared, Vec3.dot]
  rw [h.cp, eq_comm, h.b_eq_a_iff]
  refine ⟨fun hzero => h.get_closestPoint_checked hzero.1 hzero.2, fun hsafe => ⟨?_, ?_⟩,
    fun t p ha hab hp hy => ⟨closestPoint_notANumber ha hab hp hy, closestPoint_eq_a ha hab hp⟩⟩
  · exact h.closestPoint_checked hmin fun hA => not_lt.mp fun hy => hsafe ⟨hA, hy⟩
  · exact h.hasSidePoint_closestPoint hmin hW

/-- The first two corners of a needle coincide. With the same corners in another order the point is
found. -/
theorem closestPoint_flat_needle :
    let needle : Triangle Fraction := ⟨0, 0, ⟨1, 0, 0⟩⟩
    let turned : Triangle Fraction := ⟨0, ⟨1, 0, 0⟩, 0⟩
    let p : Point Fraction := ⟨1 / 2, 0, 0⟩
    let rounded : Triangle Float := ⟨⟨0, 0, 0⟩, ⟨0, 0, 0⟩, ⟨1, 0, 0⟩⟩
    let q := rounded.closestPoint ⟨0.5, 0, 0⟩
    (∀ i, (needle.checked.closestPoint p.checked).get i = .undefined) ∧
      turned.checked.closestPoint p.checked = p.checked ∧
      ∀ i, (q.get i == q.get i) = false := by
  intro needle turned p rounded q
  have hmin : 0 ≤ (Scalar.minNormal : Fraction) := by decide +kernel
  obtain ⟨hundefined, -, hrounded⟩ := closestPoint_flat hmin (t := needle) (by decide +kernel) p
  obtain ⟨-, hsafe, -⟩ := closestPoint_flat hmin (t := turned) (by decide +kernel) p
  have hturned : turned.closestPoint p = p := by decide +kernel
  obtain ⟨hnumbers, -⟩ := hrounded rounded ⟨0.5, 0, 0⟩ (by decide +kernel) (by decide +kernel)
    (by decide +kernel) (by decide +kernel)
  refine ⟨hundefined (by decide +kernel), ?_, hnumbers (by decide +kernel)⟩
  exact (hsafe (by decide +kernel)).1.trans (congrArg Vec3.checked hturned)

end SolidSurface.Triangle
