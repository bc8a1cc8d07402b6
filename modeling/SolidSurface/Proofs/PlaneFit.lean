import SolidSurface.Proofs.Scalar.RealNumber
import Mathlib.Tactic.FieldSimp
import Mathlib.Tactic.LinearCombination
import Mathlib.Tactic.Ring
import SolidSurface.Extraction.PlaneFit
import SolidSurface.Proofs.Closest

/-! # The point that fits planes best

The matrix of the normal equations is factorised exactly when it is positive definite, and then the
two substitutions solve the equations. Around a solution the energy grows by the quadratic form of
the matrix, so the solution is the only minimum. Without a pull to the centroid the form is positive
definite exactly when the normals span space.
-/

namespace SolidSurface

variable {α : Type} [FieldScalar α]

namespace Vec3

theorem get_sum (vs : List (Vec3 α)) (i : Axis) : (sum vs).get i = (vs.map (get · i)).sum := by
  rw [sum, Scalar.measure_foldl (get · i) fun s v => get_add s v i]
  cases i <;> exact zero_add _

theorem dot_self_pos {v : Vec3 α} (hv : v ≠ 0) : 0 < v.dot v := by
  refine lt_of_le_of_ne v.dot_self_nonneg fun hzero => hv (eq_of_normSquared_sub_le ?_)
  rw [normSquared, zero_add]
  simp only [dot, x_sub, y_sub, z_sub, x_zero, y_zero, z_zero, sub_zero] at hzero ⊢
  exact hzero.ge

end Vec3

namespace LowerTriangle

variable {a l : LowerTriangle α}

/-! ## Symmetric matrices -/

/-- The product of the symmetric matrix that has this lower triangle with a vector. -/
def apply (a : LowerTriangle α) (v : Vec3 α) : Vec3 α :=
  ⟨a.xx * v.x + a.yx * v.y + a.zx * v.z,
   a.yx * v.x + a.yy * v.y + a.zy * v.z,
   a.zx * v.x + a.zy * v.y + a.zz * v.z⟩

/-- The quadratic form of the symmetric matrix. -/
def form (a : LowerTriangle α) (v : Vec3 α) : α :=
  v.dot (a.apply v)

def IsPositiveDefinite (a : LowerTriangle α) : Prop :=
  ∀ v, v ≠ 0 → 0 < a.form v

/-! ## Factorisation -/

/-- Lower triangle `l` without zeros on the diagonal, for which `l * lᵀ` is the symmetric matrix. -/
structure IsFactor (l a : LowerTriangle α) : Prop where
  xx_ne : l.xx ≠ 0
  yy_ne : l.yy ≠ 0
  zz_ne : l.zz ≠ 0
  xx_eq : a.xx = l.xx * l.xx
  yx_eq : a.yx = l.yx * l.xx
  yy_eq : a.yy = l.yx * l.yx + l.yy * l.yy
  zx_eq : a.zx = l.zx * l.xx
  zy_eq : a.zy = l.zx * l.yx + l.zy * l.yy
  zz_eq : a.zz = l.zx * l.zx + l.zy * l.zy + l.zz * l.zz

/-- Both substitutions together solve the equations. -/
theorem IsFactor.apply_solve (h : l.IsFactor a) (b : Vec3 α) : a.apply (l.solve b) = b := by
  have hxx := h.xx_ne
  have hyy := h.yy_ne
  have hzz := h.zz_ne
  refine Vec3.ext_get fun i => ?_
  cases i <;>
    simp only [Vec3.get, apply, solve, h.xx_eq, h.yx_eq, h.yy_eq, h.zx_eq, h.zy_eq, h.zz_eq] <;>
    field_simp <;> ring

theorem IsFactor.form_eq (h : l.IsFactor a) (v : Vec3 α) : a.form v =
    (l.xx * v.x + l.yx * v.y + l.zx * v.z) * (l.xx * v.x + l.yx * v.y + l.zx * v.z) +
      (l.yy * v.y + l.zy * v.z) * (l.yy * v.y + l.zy * v.z) + l.zz * v.z * (l.zz * v.z) := by
  simp only [form, Vec3.dot, apply, h.xx_eq, h.yx_eq, h.yy_eq, h.zx_eq, h.zy_eq, h.zz_eq]
  ring

theorem IsFactor.isPositiveDefinite (h : l.IsFactor a) : a.IsPositiveDefinite := by
  intro v hv
  by_contra hle
  rw [h.form_eq, not_lt] at hle
  have hfirst := mul_self_nonneg (l.xx * v.x + l.yx * v.y + l.zx * v.z)
  have hsecond := mul_self_nonneg (l.yy * v.y + l.zy * v.z)
  have hthird := mul_self_nonneg (l.zz * v.z)
  -- The three squares vanish, and with them the coordinates from the last to the first.
  have hz : l.zz * v.z = 0 := mul_self_eq_zero.mp (by linarith)
  have hy : l.yy * v.y + l.zy * v.z = 0 := mul_self_eq_zero.mp (by linarith)
  have hx : l.xx * v.x + l.yx * v.y + l.zx * v.z = 0 := mul_self_eq_zero.mp (by linarith)
  replace hz : v.z = 0 := (mul_eq_zero.mp hz).resolve_left h.zz_ne
  rw [hz, mul_zero, add_zero] at hx hy
  replace hy : v.y = 0 := (mul_eq_zero.mp hy).resolve_left h.yy_ne
  rw [hy, mul_zero, add_zero] at hx
  replace hx : v.x = 0 := (mul_eq_zero.mp hx).resolve_left h.xx_ne
  exact hv (Vec3.ext_get fun i => by cases i <;> assumption)

/-! ## Pivots that are not positive -/

section Pivots

variable {s yx zx t zy : α}

/-- With the first coordinate chosen to suit, the form is the second pivot. -/
theorem exists_form_eq_second (hs : s ≠ 0) (hxx : s * s = a.xx) (hyx : yx * s = a.yx) :
    ∃ v, v ≠ 0 ∧ a.form v = -yx * yx + a.yy := by
  refine ⟨⟨-(yx / s), 1, 0⟩, fun h => one_ne_zero (congrArg Vec3.y h), ?_⟩
  have hq : yx / s * s = yx := div_mul_cancel₀ _ hs
  simp only [form, Vec3.dot, apply, ← hxx, ← hyx]
  linear_combination (yx / s * s - yx) * hq

/-- With the first two coordinates chosen to suit, the form is the third pivot. -/
theorem exists_form_eq_third (hs : s ≠ 0) (ht : t ≠ 0) (hxx : s * s = a.xx) (hyx : yx * s = a.yx)
    (hzx : zx * s = a.zx) (hyy : t * t = -yx * yx + a.yy) (hzy : zy * t = -yx * zx + a.zy) :
    ∃ v, v ≠ 0 ∧ a.form v = -zy * zy + (-zx * zx + a.zz) := by
  let y := -(zy / t)
  let x := -((yx * y + zx) / s)
  refine ⟨⟨x, y, 1⟩, fun h => one_ne_zero (congrArg Vec3.z h), ?_⟩
  have hy : t * y + zy = 0 := by
    rw [mul_neg, mul_div_cancel₀ _ ht, neg_add_cancel]
  have hx : s * x + (yx * y + zx) = 0 := by
    rw [mul_neg, mul_div_cancel₀ _ hs, neg_add_cancel]
  rw [neg_mul, eq_neg_add_iff_add_eq] at hyy hzy
  simp only [form, Vec3.dot, apply, ← hxx, ← hyx, ← hzx, ← hyy, ← hzy]
  linear_combination (s * x + (yx * y + zx)) * hx + (t * y + zy) * hy

end Pivots

/-- A factorisation gives a factor, or fails for a matrix that is not positive definite. -/
theorem cholesky?_cases (hsqrt : ∀ x : α, 0 ≤ x → Scalar.sqrt x * Scalar.sqrt x = x)
    (a : LowerTriangle α) : (∃ l, a.cholesky? = some l ∧ l.IsFactor a) ∨
      a.cholesky? = none ∧ ¬a.IsPositiveDefinite := by
  have hroot : ∀ {x : α}, 0 < x → Scalar.sqrt x ≠ 0 := by
    intro x hx hzero
    have hsquare := hsqrt x hx.le
    rw [hzero, mul_zero] at hsquare
    exact hx.ne hsquare
  have hfails : ∀ {p : α}, ¬0 < p → (∃ v, v ≠ 0 ∧ a.form v = p) → ¬a.IsPositiveDefinite := by
    rintro p hp ⟨v, hv, rfl⟩ hpositive
    exact hp (hpositive v hv)
  have hyx := fun hxx => div_mul_cancel₀ a.yx (hroot (x := a.xx) hxx)
  have hzx := fun hxx => div_mul_cancel₀ a.zx (hroot (x := a.xx) hxx)
  simp only [cholesky?, Bool.not_eq_true', decide_eq_false_iff_not]
  split_ifs with hxx hyy hzz
  · have hzy := div_mul_cancel₀
      (-(a.yx / Scalar.sqrt a.xx) * (a.zx / Scalar.sqrt a.xx) + a.zy) (hroot hyy)
    refine .inl ⟨_, rfl, ⟨hroot hxx, hroot hyy, hroot hzz, (hsqrt _ hxx.le).symm, (hyx hxx).symm,
      ?_, (hzx hxx).symm, ?_, ?_⟩⟩
    · rw [hsqrt _ hyy.le]
      ring
    · rw [hzy]
      ring
    · rw [hsqrt _ hzz.le]
      ring
  · exact .inr ⟨rfl, hfails hzz (exists_form_eq_third (hroot hxx) (hroot hyy) (hsqrt _ hxx.le)
      (hyx hxx) (hzx hxx) (hsqrt _ hyy.le) (div_mul_cancel₀ _ (hroot hyy)))⟩
  · exact .inr ⟨rfl, hfails hyy (exists_form_eq_second (hroot hxx) (hsqrt _ hxx.le) (hyx hxx))⟩
  · refine .inr ⟨rfl, hfails hxx ⟨⟨1, 0, 0⟩, fun h => one_ne_zero (congrArg Vec3.x h), ?_⟩⟩
    simp only [form, Vec3.dot, apply]
    ring

/-- A matrix is factorised exactly when it is positive definite. -/
theorem cholesky?_ne_none_iff (hsqrt : ∀ x : α, 0 ≤ x → Scalar.sqrt x * Scalar.sqrt x = x) :
    a.cholesky? ≠ none ↔ a.IsPositiveDefinite := by
  rcases cholesky?_cases hsqrt a with ⟨l, hl, hfactor⟩ | ⟨hnone, hnot⟩
  · exact iff_of_true (hl ▸ Option.some_ne_none l) hfactor.isPositiveDefinite
  · exact iff_of_false (not_not_intro hnone) hnot

end LowerTriangle

/-! ## Normal equations -/

namespace PlaneFit

variable {planes : List (TangentPlane α)} {w : α} {c : Point α}

/-- What is minimised: squared distances from the planes, and from `c` with the weight `w`. -/
def energy (planes : List (TangentPlane α)) (w : α) (c x : Point α) : α :=
  (planes.map fun t => t.normal.dot (x - t.point) * t.normal.dot (x - t.point)).sum +
    w * (x - c).dot (x - c)

/-- The energy is less at `x` than at any other point. -/
def IsOnlyMinimum (planes : List (TangentPlane α)) (w : α) (c x : Point α) : Prop :=
  ∀ y, y ≠ x → energy planes w c x < energy planes w c y

/-- Every vector is a sum of multiples of the normals. -/
def NormalsSpan (planes : List (TangentPlane α)) : Prop :=
  ∀ v : Vec3 α, ∃ f : TangentPlane α → α, ∀ i,
    v.get i = (planes.map fun t => f t * t.normal.get i).sum

/-- The centroid is the mean of the points. -/
theorem get_centroid (hne : planes ≠ []) (i : Axis) :
    (planes.length : α) * (centroid planes).get i = (planes.map fun t => t.point.get i).sum := by
  have hlength : (planes.length : α) ≠ 0 :=
    Nat.cast_ne_zero.mpr (mt List.length_eq_zero_iff.mp hne)
  rw [centroid, Vec3.get_quotient, FieldScalar.ofNat_eq, mul_div_cancel₀ _ hlength, Vec3.get_sum,
    List.map_map]
  rfl

theorem dot_apply_matrix (planes : List (TangentPlane α)) (w : α) (u v : Vec3 α) :
    u.dot ((matrix planes w).apply v) =
      (planes.map fun t => t.normal.dot u * t.normal.dot v).sum + w * u.dot v := by
  have hstep : ∀ (a : LowerTriangle α) (t : TangentPlane α), u.dot ((a.addOuter t.normal).apply v) =
      u.dot (a.apply v) + t.normal.dot u * t.normal.dot v := by
    intro a t
    simp only [Vec3.dot, LowerTriangle.apply, LowerTriangle.addOuter]
    ring
  have hdiagonal : u.dot ((LowerTriangle.diagonal w).apply v) = w * u.dot v := by
    simp only [Vec3.dot, LowerTriangle.apply, LowerTriangle.diagonal]
    ring
  rw [matrix, Scalar.measure_foldl (fun a : LowerTriangle α => u.dot (a.apply v)) hstep,
    hdiagonal, add_comm]

theorem dot_moment (planes : List (TangentPlane α)) (c : Point α) (u : Vec3 α) :
    u.dot (moment planes c) =
      (planes.map fun t => t.normal.dot u * t.normal.dot (t.point - c)).sum := by
  have hstep : ∀ (b : Vec3 α) (t : TangentPlane α),
      u.dot (b + t.normal * t.normal.dot (t.point - c)) =
        u.dot b + t.normal.dot u * t.normal.dot (t.point - c) := by
    intro b t
    simp only [Vec3.dot, Vec3.x_add, Vec3.y_add, Vec3.z_add, Vec3.x_scale, Vec3.y_scale,
      Vec3.z_scale]
    ring
  have hzero : u.dot 0 = 0 := by simp [Vec3.dot]
  rw [moment, Scalar.measure_foldl u.dot hstep, hzero, zero_add]

/-- A step changes the energy by its slope along the step, which is the error in the normal
equations, and by the quadratic form of the step. -/
theorem energy_eq (planes : List (TangentPlane α)) (w : α) (c x y : Point α) :
    energy planes w c y = energy planes w c x +
      2 * (y - x).dot ((matrix planes w).apply (x - c) - moment planes c) +
      (matrix planes w).form (y - x) := by
  have hdot : ∀ u v v' : Vec3 α, u.dot (v - v') = u.dot v - u.dot v' := by
    intro u v v'
    simp only [Vec3.dot, Vec3.x_sub, Vec3.y_sub, Vec3.z_sub]
    ring
  rw [hdot, LowerTriangle.form, dot_apply_matrix, dot_apply_matrix, dot_moment, energy, energy]
  induction planes with
  | nil =>
      simp only [List.map_nil, List.sum_nil, Vec3.dot, Vec3.x_sub, Vec3.y_sub, Vec3.z_sub]
      ring
  | cons t planes ih =>
      simp only [List.map_cons, List.sum_cons]
      simp only [Vec3.dot, Vec3.x_sub, Vec3.y_sub, Vec3.z_sub] at ih ⊢
      linear_combination ih

/-- The energy is least where the normal equations of a positive definite matrix hold. -/
theorem isOnlyMinimum (hpositive : (matrix planes w).IsPositiveDefinite) {v : Vec3 α}
    (hv : (matrix planes w).apply v = moment planes c) : IsOnlyMinimum planes w c (c + v) := by
  intro y hy
  have hstep : y - (c + v) ≠ 0 := by
    intro h
    refine hy (Vec3.ext_get fun i => sub_eq_zero.mp ?_)
    rw [← Vec3.get_sub, h]
    cases i <;> rfl
  have hoffset : c + v - c = v := Vec3.ext_get fun i => by
    rw [Vec3.get_sub, Vec3.get_add, add_sub_cancel_left]
  have hslope : (y - (c + v)).dot (moment planes c - moment planes c) = 0 := by
    simp only [Vec3.dot, Vec3.x_sub, Vec3.y_sub, Vec3.z_sub, sub_self, mul_zero, add_zero]
  rw [energy_eq planes w c (c + v) y, hoffset, hv, hslope, mul_zero, add_zero]
  exact lt_add_of_pos_right _ (hpositive _ hstep)

/-! ## Positive definite systems -/

theorem form_matrix (planes : List (TangentPlane α)) (w : α) (v : Vec3 α) :
    (matrix planes w).form v =
      (planes.map fun t => t.normal.dot v * t.normal.dot v).sum + w * v.dot v :=
  dot_apply_matrix planes w v v

theorem squares_nonneg (planes : List (TangentPlane α)) (f : TangentPlane α → α) :
    ∀ x ∈ planes.map fun t => f t * f t, 0 ≤ x := by
  intro x hx
  obtain ⟨t, -, rfl⟩ := List.mem_map.mp hx
  exact mul_self_nonneg _

theorem energy_nonneg (planes : List (TangentPlane α)) (hw : 0 ≤ w) (c x : Point α) :
    0 ≤ energy planes w c x :=
  add_nonneg (List.sum_nonneg (squares_nonneg planes _)) (mul_nonneg hw (Vec3.dot_self_nonneg _))

/-- A pull to the centroid makes every system positive definite. -/
theorem isPositiveDefinite_matrix (planes : List (TangentPlane α)) (hw : 0 < w) :
    (matrix planes w).IsPositiveDefinite := by
  intro v hv
  rw [form_matrix]
  exact add_pos_of_nonneg_of_pos (List.sum_nonneg (squares_nonneg planes _))
    (mul_pos hw (Vec3.dot_self_pos hv))

theorem get_apply_matrix (planes : List (TangentPlane α)) (w : α) (v : Vec3 α) (i : Axis) :
    ((matrix planes w).apply v).get i =
      (planes.map fun t => t.normal.dot v * t.normal.get i).sum + w * v.get i := by
  have hunit := fun u : Vec3 α => dot_apply_matrix planes w u v
  cases i
  · simpa [Vec3.dot, Vec3.get, mul_comm] using hunit ⟨1, 0, 0⟩
  · simpa [Vec3.dot, Vec3.get, mul_comm] using hunit ⟨0, 1, 0⟩
  · simpa [Vec3.dot, Vec3.get, mul_comm] using hunit ⟨0, 0, 1⟩

theorem dot_combination {f : TangentPlane α → α} {v : Vec3 α}
    (hv : ∀ i, v.get i = (planes.map fun t => f t * t.normal.get i).sum) (u : Vec3 α) :
    v.dot u = (planes.map fun t => f t * t.normal.dot u).sum := by
  have hx := hv .x
  have hy := hv .y
  have hz := hv .z
  simp only [Vec3.get] at hx hy hz
  simp only [Vec3.dot, hx, hy, hz, ← List.sum_map_mul_right, ← List.sum_map_add]
  congr 1
  refine List.map_congr_left fun t _ => ?_
  ring

/-- Without the pull a system is positive definite exactly when the normals span space. -/
theorem isPositiveDefinite_iff_normalsSpan
    (hsqrt : ∀ x : α, 0 ≤ x → Scalar.sqrt x * Scalar.sqrt x = x) :
    (matrix planes 0).IsPositiveDefinite ↔ NormalsSpan planes := by
  constructor
  · intro hpositive v
    rcases LowerTriangle.cholesky?_cases hsqrt (matrix planes 0) with ⟨l, -, hl⟩ | ⟨-, hnot⟩
    · refine ⟨fun t => t.normal.dot (l.solve v), fun i => ?_⟩
      have hget := get_apply_matrix planes 0 (l.solve v) i
      rwa [hl.apply_solve, zero_mul, add_zero] at hget
    · exact absurd hpositive hnot
  · intro hspan v hv
    rw [form_matrix, zero_mul, add_zero]
    refine lt_of_le_of_ne (List.sum_nonneg (squares_nonneg planes _)) fun hzero => ?_
    -- A vector that the form vanishes on is orthogonal to the normals, so to all that they span.
    obtain ⟨f, hf⟩ := hspan v
    have hnormal : ∀ t ∈ planes, t.normal.dot v = 0 := fun t ht =>
      mul_self_eq_zero.mp (List.all_zero_of_le_zero_le_of_sum_eq_zero (squares_nonneg planes _)
        hzero.symm (List.mem_map.mpr ⟨t, ht, rfl⟩))
    refine (Vec3.dot_self_pos hv).ne ?_
    rw [dot_combination hf]
    refine (List.sum_eq_zero fun x hx => ?_).symm
    obtain ⟨t, ht, rfl⟩ := List.mem_map.mp hx
    rw [hnormal t ht, mul_zero]

theorem offset_eq_zero (h : (matrix planes w).cholesky? = none) : offset planes w = 0 := by
  rw [offset, h]

theorem offset_eq_solve {l : LowerTriangle α} (h : (matrix planes w).cholesky? = some l) :
    offset planes w = l.solve (moment planes (centroid planes)) := by
  have hfinite : ∀ x : Vec3 α, x.isFinite = true := fun x =>
    Vec3.all_eq_true_iff.mpr fun _ => FieldScalar.isFinite_eq _
  simp only [offset, h, hfinite, if_true]

/-- The fitted point is the only minimum of the energy whenever the system is positive definite, and
the centroid otherwise. -/
theorem point_spec (hsqrt : ∀ x : α, 0 ≤ x → Scalar.sqrt x * Scalar.sqrt x = x)
    (planes : List (TangentPlane α)) (w : α) :
    ((matrix planes w).IsPositiveDefinite →
        IsOnlyMinimum planes w (centroid planes) (point planes w)) ∧
      (¬(matrix planes w).IsPositiveDefinite → point planes w = centroid planes) := by
  rcases LowerTriangle.cholesky?_cases hsqrt (matrix planes w) with
    ⟨l, hl, hfactor⟩ | ⟨hnone, hnot⟩
  · refine ⟨fun hpositive => ?_, fun hnot => absurd hfactor.isPositiveDefinite hnot⟩
    rw [point, offset_eq_solve hl]
    exact isOnlyMinimum hpositive (hfactor.apply_solve _)
  · refine ⟨fun hpositive => absurd hpositive hnot, fun _ => ?_⟩
    rw [point, offset_eq_zero hnone]
    refine Vec3.ext_get fun i => ?_
    cases i <;> exact add_zero _

end PlaneFit

/-- With exact roots, the point fitted to a non-empty list of planes is the only minimum of the
energy when there is a pull to the centroid, and then the factorisation succeeds, or when the
normals span space; without either it is the centroid. -/
theorem fitPlanes?_minimises (hsqrt : ∀ x : α, 0 ≤ x → Scalar.sqrt x * Scalar.sqrt x = x)
    {planes : List (TangentPlane α)} (hne : planes ≠ []) (w : α) :
    ∃ c x, (∀ i, (planes.length : α) * c.get i = (planes.map fun t => t.point.get i).sum) ∧
      fitPlanes? planes w = some x ∧
      (0 < w → (PlaneFit.matrix planes w).cholesky? ≠ none ∧ PlaneFit.IsOnlyMinimum planes w c x) ∧
      (w = 0 → PlaneFit.NormalsSpan planes → PlaneFit.IsOnlyMinimum planes w c x) ∧
      (w = 0 → ¬PlaneFit.NormalsSpan planes → x = c) := by
  obtain ⟨hleast, hcentroid⟩ := PlaneFit.point_spec hsqrt planes w
  have hfits : fitPlanes? planes w = some (PlaneFit.point planes w) := by
    cases planes with
    | nil => exact absurd rfl hne
    | cons => rfl
  refine ⟨PlaneFit.centroid planes, PlaneFit.point planes w, PlaneFit.get_centroid hne, hfits,
    fun hpull => ?_, fun hzero hspan => ?_, fun hzero hspan => ?_⟩
  · have hpositive := PlaneFit.isPositiveDefinite_matrix planes hpull
    exact ⟨(LowerTriangle.cholesky?_ne_none_iff hsqrt).mpr hpositive, hleast hpositive⟩
  · subst hzero
    exact hleast ((PlaneFit.isPositiveDefinite_iff_normalsSpan hsqrt).mpr hspan)
  · subst hzero
    exact hcentroid (mt (PlaneFit.isPositiveDefinite_iff_normalsSpan hsqrt).mp hspan)

/-- Three planes at right angles fit their common point. -/
theorem fitPlanes?_minimises_corner :
    let planes : List (TangentPlane RealNumber) :=
      [⟨⟨1, 0, 0⟩, ⟨1, 0, 0⟩⟩, ⟨⟨0, 2, 0⟩, ⟨0, 1, 0⟩⟩, ⟨⟨0, 0, 3⟩, ⟨0, 0, 1⟩⟩]
    fitPlanes? planes 0 = some ⟨1, 2, 3⟩ := by
  intro planes
  obtain ⟨c, x, -, hfit, -, hleast, -⟩ := fitPlanes?_minimises
    (fun _ => RealNumber.sqrt_mul_sqrt) (List.cons_ne_nil _ _ : planes ≠ []) 0
  have hspan : PlaneFit.NormalsSpan planes := fun v =>
    ⟨fun t => v.dot t.normal, fun i => by
      cases i <;> simp [planes, Vec3.get, Vec3.dot]⟩
  have henergy : PlaneFit.energy planes 0 c ⟨1, 2, 3⟩ = 0 := by
    simp [planes, PlaneFit.energy, Vec3.dot]
  have hnonneg : 0 ≤ PlaneFit.energy planes 0 c x := PlaneFit.energy_nonneg planes le_rfl c x
  rw [hfit]
  by_contra hne
  have hless := hleast rfl hspan ⟨1, 2, 3⟩ fun h => hne (congrArg some h.symm)
  exact hnonneg.not_gt (hless.trans_eq henergy)

end SolidSurface
