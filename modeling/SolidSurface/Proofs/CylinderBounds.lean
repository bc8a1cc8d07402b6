import SolidSurface.Proofs.Scalar.RealNumber
import Mathlib.Tactic.Linarith
import Mathlib.Tactic.Ring
import SolidSurface.Proofs.Bisection
import SolidSurface.Solid.Elementary

/-! # The box of a cylinder

A cylinder asks its box before it measures. The box reaches beyond that of the axis by the extents
of the caps, and along no coordinate axis does a vector across the cylinder reach farther: this is
the inequality of Cauchy and Schwarz for the vector and the part of the coordinate axis that lies in
the plane of a cap. So the box turns away no point that the measurements would let in.
-/

namespace SolidSurface

/-! ## Vectors across a direction -/

namespace Vec3

variable {α : Type} [FieldScalar α] {n v w : Vec3 α}

theorem dot_mul_dot_le (v w : Vec3 α) : v.dot w * v.dot w ≤ v.dot v * w.dot w := by
  have h := normSquared_nonneg (v.cross w)
  rw [normSquared_cross] at h
  exact sub_nonneg.mp h

/-- The unit vector along a coordinate axis. -/
def along : Axis → Vec3 α
  | .x => ⟨1, 0, 0⟩
  | .y => ⟨0, 1, 0⟩
  | .z => ⟨0, 0, 1⟩

theorem dot_along (v : Vec3 α) (i : Axis) : v.dot (along i) = v.get i := by
  cases i <;> simp [dot, along, get]

theorem along_dot_self (i : Axis) : (along i : Vec3 α).dot (along i) = 1 := by
  cases i <;> simp [dot, along]

theorem dot_comm (v w : Vec3 α) : v.dot w = w.dot v := by
  simp only [dot]
  ring

theorem dot_quotient (v w : Vec3 α) (a : α) : v.dot (w / a) = v.dot w / a := by
  simp only [dot, x_quotient, y_quotient, z_quotient]
  ring

theorem dot_sub_scale (v w n : Vec3 α) (a : α) : v.dot (w - n * a) = v.dot w - v.dot n * a := by
  simp only [dot, x_sub, y_sub, z_sub, x_scale, y_scale, z_scale]
  ring

theorem sub_scale_dot_self (v n : Vec3 α) (a : α) :
    (v - n * a).dot (v - n * a) = v.dot v - 2 * a * n.dot v + a * a * n.dot n := by
  simp only [dot, x_sub, y_sub, z_sub, x_scale, y_scale, z_scale]
  ring

/-- A vector across a unit vector `n` meets a coordinate axis only in the part of the axis that is
across `n` itself, and that part has the square `1 - nᵢ²`. -/
theorem get_mul_self_le (hn : n.dot n = 1) (hw : w.dot n = 0) (i : Axis) :
    w.get i * w.get i ≤ w.normSquared * (1 - n.get i * n.get i) := by
  have hpart : w.dot (along i - n * n.get i) = w.get i := by
    rw [dot_sub_scale, dot_along, hw, zero_mul, sub_zero]
  have hsquare : (along i - n * n.get i).dot (along i - n * n.get i) =
      1 - n.get i * n.get i := by
    rw [sub_scale_dot_self, along_dot_self, dot_along, hn]
    ring
  have h := dot_mul_dot_le w (along i - n * n.get i)
  rwa [hpart, hsquare, ← zero_add (w.dot w)] at h

end Vec3

theorem Scalar.inUnit_iff {α : Type} [FieldScalar α] (a : α) :
    Scalar.inUnit a = true ↔ 0 ≤ a ∧ a ≤ 1 := by
  rw [Scalar.inUnit, Bool.and_eq_true, decide_eq_true_iff, decide_eq_true_iff]

/-! ## Feet of perpendiculars -/

section Foot

variable {α : Type} [FieldScalar α] {a b p : Point α} {t : α}

/-- The perpendicular from `p` on the line through `a` and `b` meets it at the fraction `t` of the
way from `a` to `b`, and nothing on the line is nearer. -/
structure IsFoot (a b p : Point α) (t : α) : Prop where
  across : (p - a.toward b t).dot (b - a) = 0
  nearest (u : α) : (p - a.toward b t).normSquared ≤ (p - a.toward b u).normSquared

/-- Away from the foot distances on the line grow by the theorem of Pythagoras. -/
theorem normSquared_sub_toward (h : (p - a.toward b t).dot (b - a) = 0) (u : α) :
    (p - a.toward b u).normSquared = (p - a.toward b t).normSquared +
      (t - u) * (t - u) * (b - a).normSquared := by
  have hsquare : (p - a.toward b u).normSquared = (p - a.toward b t).normSquared +
      2 * (t - u) * (p - a.toward b t).dot (b - a) + (t - u) * (t - u) * (b - a).normSquared := by
    simp only [Vec3.toward, Vec3.normSquared, Vec3.dot, Vec3.x_sub, Vec3.y_sub, Vec3.z_sub,
      Vec3.x_add, Vec3.y_add, Vec3.z_add, Vec3.x_scale, Vec3.y_scale, Vec3.z_scale]
    ring
  rw [hsquare, h, mul_zero, add_zero]

theorem isFoot_of_across (h : (p - a.toward b t).dot (b - a) = 0) : IsFoot a b p t where
  across := h
  nearest u := by
    rw [normSquared_sub_toward h u]
    exact le_add_of_nonneg_right (mul_nonneg (mul_self_nonneg _) (Vec3.normSquared_nonneg _))

theorem isFoot_iff (hab : (b - a).normSquared ≠ 0) :
    IsFoot a b p t ↔ t = (p - a).dot (b - a) / (b - a).normSquared := by
  have hdot : (p - a.toward b t).dot (b - a) =
      (p - a).dot (b - a) - t * (b - a).normSquared := by
    simp only [Vec3.toward, Vec3.normSquared, Vec3.dot, Vec3.x_sub, Vec3.y_sub, Vec3.z_sub,
      Vec3.x_add, Vec3.y_add, Vec3.z_add, Vec3.x_scale, Vec3.y_scale, Vec3.z_scale]
    ring
  have hacross : (p - a.toward b t).dot (b - a) = 0 ↔
      t = (p - a).dot (b - a) / (b - a).normSquared := by
    rw [hdot, sub_eq_zero, eq_div_iff hab]
    exact eq_comm
  exact ⟨fun h => hacross.mp h.across, fun h => isFoot_of_across (hacross.mpr h)⟩

/-- A point between the ends of a segment is in the box that they span. -/
theorem get_toward_mem_span (ht : 0 ≤ t) (ht' : t ≤ 1) (i : Axis) :
    min (a.get i) (b.get i) ≤ (a.toward b t).get i ∧
      (a.toward b t).get i ≤ max (a.get i) (b.get i) := by
  have hmean : (a.toward b t).get i = (1 - t) * a.get i + t * b.get i := by
    rw [Vec3.get_toward]
    ring
  have ht₀ : 0 ≤ 1 - t := sub_nonneg.mpr ht'
  rw [hmean]
  constructor
  · calc min (a.get i) (b.get i)
        = (1 - t) * min (a.get i) (b.get i) + t * min (a.get i) (b.get i) := by ring
      _ ≤ (1 - t) * a.get i + t * b.get i :=
        add_le_add (mul_le_mul_of_nonneg_left (min_le_left _ _) ht₀)
          (mul_le_mul_of_nonneg_left (min_le_right _ _) ht)
  · calc (1 - t) * a.get i + t * b.get i
        ≤ (1 - t) * max (a.get i) (b.get i) + t * max (a.get i) (b.get i) :=
        add_le_add (mul_le_mul_of_nonneg_left (le_max_left _ _) ht₀)
          (mul_le_mul_of_nonneg_left (le_max_right _ _) ht)
      _ = max (a.get i) (b.get i) := by ring

end Foot

/-! ## Cylinders -/

namespace Cylinder

variable {bottom top p : Point RealNumber} {n w : Vec3 RealNumber} {radius : RealNumber}
  {c : Cylinder RealNumber}

theorem discExtent_nonneg (hradius : 0 < radius) (a : RealNumber) : 0 ≤ discExtent radius a :=
  mul_nonneg hradius.le (RealNumber.sqrt_nonneg _)

/-- A vector in the plane of a cap reaches along no axis beyond the extent of the cap. -/
theorem abs_get_le_discExtent (hradius : 0 < radius) (hn : n.dot n = 1) (hw : w.dot n = 0)
    (hlength : w.normSquared ≤ radius * radius) (i : Axis) :
    |w.get i| ≤ discExtent radius (n.get i) := by
  have hacross := Vec3.get_mul_self_le hn hw i
  have hroot : Scalar.sqrt (max (1 - n.get i * n.get i) 0) *
      Scalar.sqrt (max (1 - n.get i * n.get i) 0) = max (1 - n.get i * n.get i) 0 :=
    RealNumber.sqrt_mul_sqrt (le_max_right _ _)
  refine abs_le_of_sq_le_sq ?_ (discExtent_nonneg hradius _)
  calc w.get i ^ 2 = w.get i * w.get i := sq _
    _ ≤ w.normSquared * (1 - n.get i * n.get i) := hacross
    _ ≤ w.normSquared * max (1 - n.get i * n.get i) 0 :=
      mul_le_mul_of_nonneg_left (le_max_left _ _) (Vec3.normSquared_nonneg w)
    _ ≤ radius * radius * max (1 - n.get i * n.get i) 0 :=
      mul_le_mul_of_nonneg_right hlength (le_max_right _ _)
    _ = discExtent radius (n.get i) ^ 2 := by
      rw [discExtent, Scalar.max_eq, mul_pow, sq radius, sq (Scalar.sqrt _), hroot]

/-- The cylinder that is made around an axis of direction `n`. -/
noncomputable def around (bottom top : Point RealNumber) (radius : RealNumber)
    (n : Vec3 RealNumber) : Cylinder RealNumber :=
  let extent := n.map (discExtent radius)
  ⟨bottom, top, radius, .spanning (bottom.inf top - extent) (bottom.sup top + extent)⟩

/-- A cylinder is made of a positive radius and an axis that is long enough to have a direction. -/
theorem make_eq_ok_iff : make bottom top radius = .ok c ↔
    0 < radius ∧ Scalar.epsilon < (top - bottom).norm ∧
      c = around bottom top radius (top - bottom).normalize := by
  have hfinite : ∀ q : Point RealNumber, requireFinite q = .ok () := fun q => rfl
  rw [make, hfinite, hfinite]
  by_cases hradius : 0 < radius
  · rw [requireRadius, if_pos ((Scalar.isPositive_iff radius).mpr hradius), Vec3.normalize?]
    by_cases hlong : Scalar.epsilon < (top - bottom).norm
    · rw [if_neg (not_le.mpr hlong)]
      constructor
      · intro h
        cases h
        exact ⟨hradius, hlong, rfl⟩
      · rintro ⟨-, -, rfl⟩
        rfl
    · rw [if_pos (not_lt.mp hlong)]
      constructor
      · intro h
        cases h
      · intro h
        exact absurd h.2.1 hlong
  · rw [requireRadius, if_neg (mt (Scalar.isPositive_iff radius).mp hradius)]
    constructor
    · intro h
      cases h
    · intro h
      exact absurd h.1 hradius

/-- The box of a cylinder holds what is across its axis, within its radius. -/
theorem contains_bounds_around {t : RealNumber} (hradius : 0 < radius) (hn : n.dot n = 1)
    (ht : 0 ≤ t) (ht' : t ≤ 1) (hw : (p - bottom.toward top t).dot n = 0)
    (hlength : (p - bottom.toward top t).normSquared ≤ radius * radius) :
    (around bottom top radius n).bounds.contains p = true := by
  rw [Box.contains_iff]
  intro i
  obtain ⟨hlower, hupper⟩ := get_toward_mem_span (a := bottom) (b := top) ht ht' i
  have hreach := abs_le.mp (abs_get_le_discExtent hradius hn hw hlength i)
  rw [Vec3.get_sub] at hreach
  simp only [around, Box.spanning, Vec3.get_inf, Vec3.get_sup, Vec3.get_sub, Vec3.get_add,
    Vec3.get_map]
  constructor
  · refine (min_le_left _ _).trans ?_
    linarith
  · refine le_trans ?_ (le_max_right _ _)
    linarith

/-- What a cylinder asks once its box has let a point in. -/
theorem contains_iff_bounds_and {α : Type} [FieldScalar α] {c : Cylinder α} {p : Point α}
    (haxis : (c.top - c.bottom).normSquared ≠ 0) :
    c.contains p = true ↔ c.bounds.contains p = true ∧
      ∃ t, IsFoot c.bottom c.top p t ∧ 0 ≤ t ∧ t ≤ 1 ∧
        (p - c.bottom.toward c.top t).normSquared ≤ c.radius * c.radius := by
  have hsub : ∀ t, p - c.bottom - (c.top - c.bottom) * t = p - c.bottom.toward c.top t := by
    intro t
    refine Vec3.ext_get fun i => ?_
    rw [Vec3.get_sub, Vec3.get_sub, Vec3.get_scale, Vec3.get_sub, Vec3.get_sub, Vec3.get_toward,
      sub_sub]
  simp only [isFoot_iff haxis, exists_eq_left, contains]
  split
  · rw [hsub, Bool.and_eq_true, Scalar.inUnit_iff, decide_eq_true_iff, and_assoc]
    exact (and_iff_right ‹_›).symm
  · exact iff_of_false Bool.false_ne_true fun h => absurd h.1 ‹_›

/-- In exact arithmetic a cylinder holds exactly the points whose foot on the axis line lies on the
axis and is no farther than the radius. Its box turns none of them away. -/
theorem contains_iff_near_axis (h : make bottom top radius = .ok c) (p : Point RealNumber) :
    c.contains p = true ↔ ∃ t, IsFoot bottom top p t ∧ 0 ≤ t ∧ t ≤ 1 ∧
      (p - bottom.toward top t).normSquared ≤ radius * radius := by
  obtain ⟨hradius, hlong, rfl⟩ := make_eq_ok_iff.mp h
  have hpos : 0 < (top - bottom).norm := (RealNumber.inv_two_pow_pos 52).trans hlong
  have hroot : (top - bottom).norm * (top - bottom).norm = (top - bottom).normSquared :=
    RealNumber.sqrt_mul_sqrt (Vec3.normSquared_nonneg _)
  have haxis : (top - bottom).normSquared ≠ 0 := by
    rw [← hroot]
    exact (mul_pos hpos hpos).ne'
  rw [contains_iff_bounds_and haxis]
  refine and_iff_right_of_imp ?_
  rintro ⟨t, hfoot, ht, ht', hlength⟩
  refine contains_bounds_around hradius ?_ ht ht' ?_ hlength
  · rw [Vec3.normalize, Vec3.dot_quotient, Vec3.dot_comm, Vec3.dot_quotient, div_div, hroot,
      Vec3.normSquared, zero_add]
    exact div_self (by rwa [Vec3.normSquared, zero_add] at haxis)
  · rw [Vec3.normalize, Vec3.dot_quotient, show (p - bottom.toward top t).dot (top - bottom) = 0
      from hfoot.across, zero_div]

/-- A point on the rim of a cap of a tilted cylinder. -/
theorem contains_iff_near_axis_rim : ∃ c : Cylinder RealNumber,
    make ⟨0, 0, 0⟩ ⟨3, 4, 0⟩ 1 = .ok c ∧ c.contains ⟨-4 / 5, 3 / 5, 0⟩ = true := by
  have hlong : (1 : RealNumber) ≤ (⟨3, 4, 0⟩ - ⟨0, 0, 0⟩ : Vec3 RealNumber).norm := by
    refine (mul_self_le_mul_self_iff zero_le_one (RealNumber.sqrt_nonneg _)).mpr ?_
    rw [RealNumber.sqrt_mul_sqrt (Vec3.normSquared_nonneg _)]
    norm_num [Vec3.normSquared, Vec3.dot]
  have hepsilon : (Scalar.epsilon : RealNumber) < 1 :=
    RealNumber.inv_two_pow_lt_one (show 52 ≠ 0 by decide)
  have hmake := make_eq_ok_iff.mpr ⟨zero_lt_one' RealNumber, hepsilon.trans_le hlong, rfl⟩
  refine ⟨_, hmake, (contains_iff_near_axis hmake _).mpr ⟨0, ?_, le_rfl, zero_le_one, ?_⟩⟩
  · apply isFoot_of_across
    norm_num [Vec3.toward, Vec3.dot]
  · norm_num [Vec3.toward, Vec3.normSquared, Vec3.dot]

end Cylinder

end SolidSurface
