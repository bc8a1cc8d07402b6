import SolidSurface.Proofs.Scalar.Fraction
import SolidSurface.Proofs.Closest
import SolidSurface.Proofs.Ray
import SolidSurface.Proofs.Scalar.Checked

/-! # Where a ray meets a triangle

A ray that does not run along the plane of a triangle meets it once. The crossing is made of that
position and its weights, if they are those of a point of the triangle ahead of the origin; a ray
along the plane never crosses. So a triangle is struck exactly when a point of it lies ahead on the
ray, unless it has no normal for being too small or is passed over for being nearly parallel.
-/

namespace SolidSurface

variable {α : Type} [FieldScalar α]

/-- The position and the weights belong to one point on the ray and in the plane of the triangle. -/
def TriangleCrossing.Solves (c : TriangleCrossing α) (r : Ray α) (t : Triangle α) : Prop :=
  r.point c.scale = t.along c.u c.v

namespace Ray

variable {r : Ray α} {t : Triangle α}

/-- The product of a direction with the cross product of two sides of a triangle, zero when the
direction is in the plane of the triangle. -/
def slant (d : Vec3 α) (t : Triangle α) : α :=
  (t.b - t.a).dot (d.cross (t.c - t.a))

/-- A ray counts as parallel when its slant is smaller than this. Nothing is assumed of the roots in
it, so it may have any value. -/
def parallelBound (d : Vec3 α) (t : Triangle α) : α :=
  parallelTolerance * (t.b - t.a).norm * (t.c - t.a).norm * d.norm

/-- A triangle that rays in a direction do not pass over: it has a normal and does not count as
parallel. -/
structure Discerns (d : Vec3 α) (t : Triangle α) : Prop where
  hasNormal : t.normal? ≠ none
  notParallel :
    parallelTolerance * (t.b - t.a).norm * (t.c - t.a).norm * d.norm ≤ |slant d t|

/-! ## The point in the plane -/

/-- The weights and the position that a crossing is computed from are those of the point where the
ray meets the plane. -/
theorem cross_products {s v w : α} (h : r.point s = t.along v w) :
    (r.origin - t.a).dot (r.direction.cross (t.c - t.a)) = slant r.direction t * v ∧
      r.direction.dot ((r.origin - t.a).cross (t.b - t.a)) = slant r.direction t * w ∧
      (t.c - t.a).dot ((r.origin - t.a).cross (t.b - t.a)) = slant r.direction t * s := by
  have hget : ∀ i, (r.origin - t.a).get i =
      (t.b - t.a).get i * v + (t.c - t.a).get i * w - r.direction.get i * s := by
    intro i
    have hi := congrArg (Vec3.get · i) h
    simp only [get_point, Triangle.get_along] at hi
    rw [Vec3.get_sub, Vec3.get_sub, Vec3.get_sub]
    linarith
  have hx := hget .x
  have hy := hget .y
  have hz := hget .z
  simp only [Vec3.get] at hx hy hz
  simp only [slant, Vec3.dot, Vec3.cross, hx, hy, hz]
  exact ⟨by ring, by ring, by ring⟩

theorem solves_iff {c : TriangleCrossing α} : c.Solves r t ↔ ∀ i, (r.point c.scale).get i =
    (1 - c.u - c.v) * t.a.get i + c.u * t.b.get i + c.v * t.c.get i := by
  have hweights : ∀ i, (t.along c.u c.v).get i =
      (1 - c.u - c.v) * t.a.get i + c.u * t.b.get i + c.v * t.c.get i := by
    intro i
    rw [Triangle.get_along]
    ring
  simp only [← hweights]
  exact ⟨fun h i => congrArg (Vec3.get · i) h, Vec3.ext_get⟩

theorem one_div_slant_mul (hslant : slant r.direction t ≠ 0) (x : α) :
    1 / slant r.direction t * (slant r.direction t * x) = x := by
  rw [← mul_assoc, one_div_mul_cancel hslant, one_mul]

/-- A ray that does not run along the plane of a triangle meets it once. -/
theorem existsUnique_solves (hslant : slant r.direction t ≠ 0) :
    ∃! c : TriangleCrossing α, c.Solves r t := by
  refine ⟨⟨_, _, _⟩, solves_iff.mpr (get_point_crossing r t hslant), ?_⟩
  rintro ⟨s, v, w⟩ h
  obtain ⟨hu, hv, hs⟩ := cross_products h
  rw [hu, hv, hs, ← slant, one_div_slant_mul hslant, one_div_slant_mul hslant,
    one_div_slant_mul hslant]

/-- A point of the triangle ahead on the ray is where the ray crosses it. -/
theorem cross?_eq_some (hseen : parallelBound r.direction t ≤ |slant r.direction t|)
    (hslant : slant r.direction t ≠ 0) {s v w : α} (hs : 0 < s) (hv : 0 ≤ v) (hw : 0 ≤ w)
    (hvw : v + w ≤ 1) (h : r.point s = t.along v w) : r.cross? t = some ⟨s, v, w⟩ := by
  obtain ⟨hu', hv', hs'⟩ := cross_products h
  have hcancel := one_div_slant_mul hslant
  have hunit : Scalar.inUnit v = true := by
    rw [Scalar.inUnit, decide_eq_true hv, decide_eq_true (by linarith : v ≤ 1)]
    rfl
  rw [parallelBound] at hseen
  simp only [cross?, FieldScalar.abs_eq, hu', hv', hs']
  rw [← slant, if_neg (not_lt.mpr hseen), hcancel, hcancel, hcancel, hunit, if_neg (by simp),
    if_neg (not_or.mpr ⟨not_lt.mpr hw, not_lt.mpr hvw⟩), if_pos hs]

/-- A ray strikes a triangle exactly when a point of the triangle lies ahead. -/
theorem isSome_strike?_iff (hseen : Discerns r.direction t) (hslant : slant r.direction t ≠ 0) :
    (r.strike? t).isSome = true ↔ ∃ s, 0 < s ∧ t.HasPoint (r.point s) := by
  constructor
  · intro h
    obtain ⟨hit, hhit⟩ := Option.isSome_iff_exists.mp h
    simp only [strike?, bind, Option.bind_eq_some_iff] at hhit
    obtain ⟨c, hcross, -⟩ := hhit
    obtain ⟨hscale, hu, hv, hsum, hpoint⟩ := cross?_spec hcross
    exact ⟨c.scale, hscale, 1 - c.u - c.v, c.u, c.v, by linarith, hu, hv, by ring, hpoint⟩
  · rintro ⟨s, hs, hpoint⟩
    obtain ⟨v, w, hv, hw, hvw, hpoint⟩ := Triangle.hasPoint_iff.mp hpoint
    obtain ⟨n, hn⟩ := Option.ne_none_iff_exists'.mp hseen.hasNormal
    simp only [strike?, cross?_eq_some hseen.notParallel hslant hs hv hw hvw hpoint, hn, bind,
      Option.bind_some]
    rfl

/-! ## Rays along the plane -/

def checked (r : Ray α) : Ray (Checked α) :=
  ⟨r.origin.checked, r.direction.checked⟩

/-- Where the division by zero is left undefined, a ray along the plane of a triangle does not cross
it either: no comparison with what comes of it succeeds. -/
theorem cross?_checked_eq_none (h : slant r.direction t = 0) :
    r.checked.cross? t.checked = none := by
  have hslant : (t.checked.b - t.checked.a).dot
      (r.checked.direction.cross (t.checked.c - t.checked.a)) = Checked.of 0 :=
    congrArg Checked.of h
  have hinverse : (1 : Checked α) / Checked.of 0 = Checked.undefined := Checked.of_div_zero 1
  have hunit : ∀ x : Checked α, Scalar.inUnit (Checked.undefined * x) = false := fun _ => rfl
  simp only [cross?, hslant, hinverse, hunit, Bool.not_false, if_true, ite_self]

/-! ## Crossings in exact arithmetic -/

/-- A ray that does not run along the plane of a triangle, nor counts as parallel, crosses the
triangle exactly with the position and the weights of the one point where it meets the plane, when
this point lies ahead and in the triangle, sides included. A ray along the plane never crosses. The
barycentric weights of a strike are a convex combination, and it gives the point that is struck. -/
theorem cross?_exact (r : Ray α) (t : Triangle α) :
    (slant r.direction t ≠ 0 → parallelBound r.direction t ≤ |slant r.direction t| →
      (∃! c : TriangleCrossing α, c.Solves r t) ∧
      ∀ c, r.cross? t = some c ↔
        c.Solves r t ∧ 0 < c.scale ∧ 0 ≤ c.u ∧ 0 ≤ c.v ∧ c.u + c.v ≤ 1) ∧
    (slant r.direction t = 0 → r.cross? t = none ∧ r.checked.cross? t.checked = none) ∧
    (∀ h, r.strike? t = some h →
      0 ≤ h.barycentric.x ∧ 0 ≤ h.barycentric.y ∧ 0 ≤ h.barycentric.z ∧
      h.barycentric.x + h.barycentric.y + h.barycentric.z = 1 ∧
      ∀ i, (r.point h.scale).get i = h.barycentric.x * t.a.get i + h.barycentric.y * t.b.get i +
        h.barycentric.z * t.c.get i) := by
  refine ⟨fun hslant hseen => ⟨existsUnique_solves hslant, fun c => ⟨fun h => ?_, ?_⟩⟩,
    fun hslant => ⟨?_, cross?_checked_eq_none hslant⟩, fun h hstrike => ?_⟩
  · obtain ⟨hscale, hu, hv, hsum, hpoint⟩ := cross?_spec h
    exact ⟨solves_iff.mpr hpoint, hscale, hu, hv, hsum⟩
  · rintro ⟨hsolves, hscale, hu, hv, hsum⟩
    exact cross?_eq_some hseen hslant hscale hu hv hsum hsolves
  · rw [Option.eq_none_iff_forall_ne_some]
    exact fun c hc => ne_zero_of_cross? hc hslant
  · simp only [strike?, bind, Option.bind_eq_some_iff] at hstrike
    obtain ⟨c, hcross, n, -, hhit⟩ := hstrike
    cases hhit
    obtain ⟨-, hu, hv, hsum, hpoint⟩ := cross?_spec hcross
    exact ⟨by linarith, hu, hv, by ring, hpoint⟩

/-- A ray through the middle of a side. -/
theorem cross?_exact_side :
    let r : Ray Fraction := ⟨⟨1, 1, 1⟩, ⟨0, 0, -1⟩⟩
    let t : Triangle Fraction := ⟨⟨0, 0, 0⟩, ⟨2, 0, 0⟩, ⟨0, 2, 0⟩⟩
    r.cross? t = some ⟨1, 1 / 2, 1 / 2⟩ := by
  intro r t
  have hslant : slant r.direction t = 4 := by
    norm_num [slant, r, t, Vec3.dot, Vec3.cross]
  have hbound : parallelBound r.direction t ≤ |slant r.direction t| := by
    decide +kernel
  obtain ⟨-, hcross⟩ := (cross?_exact r t).1 (hslant ▸ four_ne_zero) hbound
  refine (hcross _).mpr ⟨Vec3.ext_get fun i => ?_, one_pos, one_half_pos.le, one_half_pos.le, ?_⟩
  · rw [get_point, Triangle.get_along]
    cases i <;> norm_num [r, t, Vec3.get]
  · norm_num

end Ray

end SolidSurface
