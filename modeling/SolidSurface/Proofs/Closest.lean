import Mathlib.Tactic.Linarith
import Mathlib.Tactic.LinearCombination
import Mathlib.Tactic.Ring
import SolidSurface.Closest
import SolidSurface.Proofs.Box

/-! # The closest point of a triangle in exact arithmetic

A point of a triangle is the closest one when no step within the triangle leads nearer, to first
order. Each test for a corner or a side is this condition there. What is left is the foot of the
perpendicular on the plane, and it has to be shown that it lies in the triangle once all tests have
failed: a negative weight would make one of them succeed.
-/

namespace SolidSurface

variable {α : Type} [FieldScalar α]

namespace Vec3

theorem normSquared_nonneg (v : Vec3 α) : 0 ≤ v.normSquared := by
  have hx := mul_self_nonneg v.x
  have hy := mul_self_nonneg v.y
  have hz := mul_self_nonneg v.z
  simp only [normSquared, dot]
  linarith

theorem dot_self_nonneg (v : Vec3 α) : 0 ≤ v.dot v := by
  have h := normSquared_nonneg v
  rwa [normSquared, zero_add] at h

/-- Points without a distance between them are the same. -/
theorem eq_of_normSquared_sub_le {v w : Vec3 α} (h : (v - w).normSquared ≤ 0) : v = w := by
  have hx := mul_self_nonneg (v.x - w.x)
  have hy := mul_self_nonneg (v.y - w.y)
  have hz := mul_self_nonneg (v.z - w.z)
  simp only [normSquared, dot, x_sub, y_sub, z_sub] at h
  refine ext_get fun i => sub_eq_zero.mp (mul_self_eq_zero.mp ?_)
  cases i <;> simp only [get] <;> linarith

/-- The identity of Lagrange. -/
theorem normSquared_cross (v w : Vec3 α) :
    (v.cross w).normSquared = v.dot v * w.dot w - v.dot w * v.dot w := by
  simp only [normSquared, dot, cross]
  ring

/-- The product with the way to a point, seen from another origin. -/
theorem dot_sub_origin (v p o o' : Vec3 α) : v.dot (p - o') = v.dot (p - o) - v.dot (o' - o) := by
  simp only [dot, x_sub, y_sub, z_sub]
  ring

end Vec3

namespace Triangle

variable {t : Triangle α} {p q : Point α}

theorem normal?_ne_none_iff : t.normal? ≠ none ↔ Scalar.minNormal < t.cross.normSquared := by
  simp only [normal?]
  split
  · rename_i h
    exact ⟨fun _ => h, fun _ => Option.some_ne_none _⟩
  · rename_i h
    exact ⟨fun hne => absurd rfl hne, fun hlt => absurd hlt h⟩

/-- The points of a triangle are the weighted means of its corners. -/
def HasPoint (t : Triangle α) (p : Point α) : Prop :=
  ∃ u v w : α, 0 ≤ u ∧ 0 ≤ v ∧ 0 ≤ w ∧ u + v + w = 1 ∧
    ∀ i, p.get i = u * t.a.get i + v * t.b.get i + w * t.c.get i

theorem HasPoint.contains_bounds (h : t.HasPoint p) : t.bounds.contains p = true := by
  obtain ⟨u, v, w, hu, hv, hw, hsum, hp⟩ := h
  exact Triangle.contains_bounds hu hv hw hsum hp

/-- The point that is reached from corner `a` along the sides to `b` and `c`. -/
def along (t : Triangle α) (v w : α) : Point α :=
  t.a + (t.b - t.a) * v + (t.c - t.a) * w

theorem get_along (t : Triangle α) (v w : α) (i : Axis) :
    (t.along v w).get i =
      t.a.get i + (t.b.get i - t.a.get i) * v + (t.c.get i - t.a.get i) * w := by
  cases i <;> rfl

theorem along_zero_zero (t : Triangle α) : t.along 0 0 = t.a :=
  Vec3.ext_get fun i => by rw [get_along]; ring

theorem along_one_zero (t : Triangle α) : t.along 1 0 = t.b :=
  Vec3.ext_get fun i => by rw [get_along]; ring

theorem along_zero_one (t : Triangle α) : t.along 0 1 = t.c :=
  Vec3.ext_get fun i => by rw [get_along]; ring

theorem along_ab (t : Triangle α) (u : α) : t.along u 0 = t.a + (t.b - t.a) * u :=
  Vec3.ext_get fun i => by rw [get_along, mul_zero, add_zero]; cases i <;> rfl

theorem along_ac (t : Triangle α) (u : α) : t.along 0 u = t.a + (t.c - t.a) * u :=
  Vec3.ext_get fun i => by rw [get_along, mul_zero, add_zero]; cases i <;> rfl

theorem along_bc (t : Triangle α) (u : α) : t.along (1 - u) u = t.b + (t.c - t.b) * u := by
  refine Vec3.ext_get fun i => ?_
  have hget : (t.b + (t.c - t.b) * u).get i = t.b.get i + (t.c.get i - t.b.get i) * u := by
    cases i <;> rfl
  rw [get_along, hget]
  ring

theorem hasPoint_iff :
    t.HasPoint p ↔ ∃ v w, 0 ≤ v ∧ 0 ≤ w ∧ v + w ≤ 1 ∧ p = t.along v w := by
  constructor
  · rintro ⟨u, v, w, hu, hv, hw, hsum, hp⟩
    refine ⟨v, w, hv, hw, by linarith, Vec3.ext_get fun i => ?_⟩
    rw [hp i, get_along, show u = 1 - v - w by linarith]
    ring
  · rintro ⟨v, w, hv, hw, hvw, rfl⟩
    refine ⟨1 - v - w, v, w, by linarith, hv, hw, by ring, fun i => ?_⟩
    rw [get_along]
    ring

theorem hasPoint_along {v w : α} (hv : 0 ≤ v) (hw : 0 ≤ w) (hvw : v + w ≤ 1) :
    t.HasPoint (t.along v w) :=
  hasPoint_iff.mpr ⟨v, w, hv, hw, hvw, rfl⟩

/-! ## Optimality -/

/-- A point of a triangle than which none is nearer to `p`. -/
def IsNearest (t : Triangle α) (p q : Point α) : Prop :=
  t.HasPoint q ∧ ∀ x, t.HasPoint x → (q - p).normSquared ≤ (x - p).normSquared

/-- No step within the triangle leads nearer to first order. -/
theorem isNearest_along {v w : α} (hv : 0 ≤ v) (hw : 0 ≤ w) (hvw : v + w ≤ 1)
    (hstep : ∀ v' w', 0 ≤ v' → 0 ≤ w' → v' + w' ≤ 1 →
      0 ≤ (v' - v) * (t.b - t.a).dot (t.along v w - p) +
        (w' - w) * (t.c - t.a).dot (t.along v w - p)) :
    t.IsNearest p (t.along v w) := by
  refine ⟨hasPoint_along hv hw hvw, fun x hx => ?_⟩
  obtain ⟨v', w', hv', hw', hvw', rfl⟩ := hasPoint_iff.mp hx
  have hsplit : (t.along v' w' - p).normSquared = (t.along v w - p).normSquared +
      2 * ((v' - v) * (t.b - t.a).dot (t.along v w - p) +
        (w' - w) * (t.c - t.a).dot (t.along v w - p)) +
      ((t.b - t.a) * (v' - v) + (t.c - t.a) * (w' - w)).normSquared := by
    simp only [along, Vec3.normSquared, Vec3.dot, Vec3.x_add, Vec3.y_add, Vec3.z_add, Vec3.x_sub,
      Vec3.y_sub, Vec3.z_sub, Vec3.x_scale, Vec3.y_scale, Vec3.z_scale]
    ring
  have hfirst := hstep v' w' hv' hw' hvw'
  have hsecond := Vec3.normSquared_nonneg ((t.b - t.a) * (v' - v) + (t.c - t.a) * (w' - w))
  linarith

/-- What a step weighs, in the products of the sides and of the way to `p`. -/
theorem dot_along_sub (u : Vec3 α) (v w : α) :
    u.dot (t.along v w - p) =
      v * u.dot (t.b - t.a) + w * u.dot (t.c - t.a) - u.dot (p - t.a) := by
  simp only [along, Vec3.dot, Vec3.x_add, Vec3.y_add, Vec3.z_add, Vec3.x_sub, Vec3.y_sub,
    Vec3.z_sub, Vec3.x_scale, Vec3.y_scale, Vec3.z_scale]
  ring

/-! ## Weights of the foot -/

/-- No corner and no side passes its test. `A`, `B` and `C` are the products of the sides from one
corner, `x` and `y` those of the sides with the way from that corner to the point. -/
structure OffRim (A B C x y : α) : Prop where
  first : ¬(x ≤ 0 ∧ y ≤ 0)
  second : ¬(A ≤ x ∧ y - B ≤ x - A)
  third : ¬(C ≤ y ∧ x - B ≤ y - C)
  side₁₂ : ¬(A * y - B * x ≤ 0 ∧ 0 ≤ x ∧ x ≤ A)
  side₁₃ : ¬(C * x - B * y ≤ 0 ∧ 0 ≤ y ∧ y ≤ C)
  side₂₃ : ¬(A * C - B * B - (A * y - B * x) - (C * x - B * y) ≤ 0 ∧ x - A ≤ y - B ∧
    y - C ≤ x - B)

namespace OffRim

variable {A B C x y : α}

/-- The tests as they are made, each a comparison of two products. -/
theorem of_not (h₁ : ¬(x ≤ 0 ∧ y ≤ 0)) (h₂ : ¬(A ≤ x ∧ y - B ≤ x - A))
    (h₁₂ : ¬(A * y ≤ B * x ∧ 0 ≤ x ∧ x ≤ A)) (h₃ : ¬(C ≤ y ∧ x - B ≤ y - C))
    (h₁₃ : ¬(C * x ≤ B * y ∧ 0 ≤ y ∧ y ≤ C))
    (h₂₃ : ¬(A * C - B * B - (A * y - B * x) ≤ C * x - B * y ∧ x - A ≤ y - B ∧ y - C ≤ x - B)) :
    OffRim A B C x y where
  first := h₁
  second := h₂
  third := h₃
  side₁₂ := mt (And.imp_left sub_nonpos.mp) h₁₂
  side₁₃ := mt (And.imp_left sub_nonpos.mp) h₁₃
  side₂₃ := mt (And.imp_left sub_nonpos.mp) h₂₃

/-- The last two corners change places. -/
theorem swap (h : OffRim A B C x y) : OffRim C B A y x where
  first := fun hxy => h.first hxy.symm
  second := h.third
  third := h.second
  side₁₂ := h.side₁₃
  side₁₃ := h.side₁₂
  side₂₃ := fun hside => h.side₂₃ ⟨by linarith [hside.1], hside.2.2, hside.2.1⟩

/-- The second corner becomes the first one and the first one the last. -/
theorem turn (h : OffRim A B C x y) :
    OffRim (A - 2 * B + C) (A - B) A (y - B - (x - A)) (A - x) where
  first := fun hxy => h.second ⟨by linarith [hxy.2], by linarith [hxy.1]⟩
  second := fun hxy => h.third ⟨by linarith [hxy.2], by linarith [hxy.1]⟩
  third := fun hxy => h.first ⟨by linarith [hxy.1], by linarith [hxy.2]⟩
  side₁₂ := fun hside => h.side₂₃ ⟨by linarith [hside.1], by linarith [hside.2.1],
    by linarith [hside.2.2]⟩
  side₁₃ := fun hside => h.side₁₂ ⟨by linarith [hside.1], by linarith [hside.2.2],
    by linarith [hside.2.1]⟩
  side₂₃ := fun hside => h.side₁₃ ⟨by linarith [hside.1], by linarith [hside.2.2],
    by linarith [hside.2.1]⟩

/-- The weight of the third corner is not negative. -/
theorem third_weight_nonneg (h : OffRim A B C x y) (hA : 0 < A) (hC : 0 < C)
    (hW : 0 < A * C - B * B) : 0 ≤ A * y - B * x := by
  by_contra hneg
  rw [not_le] at hneg
  rcases lt_or_ge x 0 with hx | hx
  · -- Behind the first corner: the point would belong to the side to the third one, or to that.
    have hy : 0 < y := not_le.mp fun hy => h.first ⟨hx.le, hy⟩
    have hB : B < 0 := by
      by_contra hB
      linarith [mul_pos hA hy, mul_nonneg (not_lt.mp hB) (neg_pos.mpr hx).le]
    have hside : C * x - B * y ≤ 0 := by
      by_contra hside
      linarith [mul_pos hC (neg_pos.mpr hneg), mul_pos (neg_pos.mpr hB) (not_le.mp hside),
        mul_pos hW hy]
    have hCy : C < y := not_le.mp fun hyC => h.side₁₃ ⟨hside, hy.le, hyC⟩
    have hthird : y - C < x - B := not_le.mp fun hle => h.third ⟨hCy.le, hle⟩
    linarith [mul_pos hA (sub_pos.mpr hCy),
      mul_pos (neg_pos.mpr hB) (show 0 < x - B by linarith)]
  · -- Beyond the second corner: it would belong to the side to the third one, or to that.
    have hAx : A < x := not_le.mp fun hxA => h.side₁₂ ⟨hneg.le, hx, hxA⟩
    have hsecond : x - A < y - B := not_le.mp fun hle => h.second ⟨hAx.le, hle⟩
    have hAB : A < B := by
      by_contra hBA
      linarith [mul_pos hA (sub_pos.mpr hsecond),
        mul_nonneg (sub_nonneg.mpr (not_lt.mp hBA)) (sub_pos.mpr hAx).le]
    have hside : A * C - B * B - (A * y - B * x) - (C * x - B * y) ≤ 0 := by
      by_contra hside
      linarith [mul_pos hA (not_le.mp hside), mul_pos (sub_pos.mpr hAB) (neg_pos.mpr hneg),
        mul_pos hW (sub_pos.mpr hAx)]
    have hthird : x - B < y - C := not_le.mp fun hle => h.side₂₃ ⟨hside, hsecond.le, hle⟩
    have hyC : y < C := not_le.mp fun hCy => h.third ⟨hCy, hthird.le⟩
    linarith [mul_pos hA (sub_pos.mpr hthird),
      mul_pos (sub_pos.mpr hAB) (show 0 < B - x by linarith)]

theorem second_weight_nonneg (h : OffRim A B C x y) (hA : 0 < A) (hC : 0 < C)
    (hW : 0 < A * C - B * B) : 0 ≤ C * x - B * y :=
  h.swap.third_weight_nonneg hC hA (by linarith)

theorem first_weight_nonneg (h : OffRim A B C x y) (hA : 0 < A) (hE : 0 < A - 2 * B + C)
    (hW : 0 < A * C - B * B) :
    0 ≤ A * C - B * B - (A * y - B * x) - (C * x - B * y) := by
  have hthird := h.turn.third_weight_nonneg hE hA (by linarith)
  linarith

end OffRim

/-! ## The closest point -/

/-- What the tests compute from the ways from all three corners, in the products of one corner: the
weights of the corners, the length of the side opposite, and the sum of the weights. -/
theorem tests_eq (A B C x y : α) :
    x * (y - B) - (x - A) * y = A * y - B * x ∧
    (x - B) * y - x * (y - C) = C * x - B * y ∧
    (x - A) * (y - C) - (x - B) * (y - B) =
      A * C - B * B - (A * y - B * x) - (C * x - B * y) ∧
    y - B - (x - A) + (x - B - (y - C)) = A - 2 * B + C ∧
    A * C - B * B - (A * y - B * x) - (C * x - B * y) + (C * x - B * y) + (A * y - B * x) =
      A * C - B * B := by
  refine ⟨?_, ?_, ?_, ?_, ?_⟩ <;> ring

/-- `A`, `B` and `C` are the products of the sides from corner `a`, and `x` and `y` those of the
sides with the way from there to `p`. -/
structure Products (t : Triangle α) (p : Point α) (A B C x y : α) : Prop where
  bb : (t.b - t.a).dot (t.b - t.a) = A
  bc : (t.b - t.a).dot (t.c - t.a) = B
  cc : (t.c - t.a).dot (t.c - t.a) = C
  bp : (t.b - t.a).dot (p - t.a) = x
  cp : (t.c - t.a).dot (p - t.a) = y

namespace Products

variable {A B C x y : α} (h : t.Products p A B C x y)

include h

theorem cb : (t.c - t.a).dot (t.b - t.a) = B := by
  rw [← h.bc]
  simp only [Vec3.dot]
  ring

/-- The sides of a triangle that has an area have lengths. -/
theorem sides_pos (hW : 0 < A * C - B * B) : 0 < A ∧ 0 < C ∧ 0 < A - 2 * B + C := by
  have hA₀ : 0 ≤ A := h.bb ▸ Vec3.dot_self_nonneg (t.b - t.a)
  have hC₀ : 0 ≤ C := h.cc ▸ Vec3.dot_self_nonneg (t.c - t.a)
  have hAC : 0 < A * C := by linarith [mul_self_nonneg B]
  have hscaled : 0 < A * (A - 2 * B + C) := by linarith [mul_self_nonneg (A - B)]
  exact ⟨pos_of_mul_pos_left hAC hC₀, pos_of_mul_pos_right hAC hA₀,
    pos_of_mul_pos_right hscaled hA₀⟩

theorem isNearest_along {v w : α} (hv : 0 ≤ v) (hw : 0 ≤ w) (hvw : v + w ≤ 1)
    (hstep : ∀ v' w', 0 ≤ v' → 0 ≤ w' → v' + w' ≤ 1 →
      0 ≤ (v' - v) * (v * A + w * B - x) + (w' - w) * (v * B + w * C - y)) :
    t.IsNearest p (t.along v w) := by
  refine Triangle.isNearest_along hv hw hvw fun v' w' hv' hw' hvw' => ?_
  rw [dot_along_sub, dot_along_sub, h.bb, h.bc, h.cb, h.cc, h.bp, h.cp]
  exact hstep v' w' hv' hw' hvw'

theorem isNearest_a (hx : x ≤ 0) (hy : y ≤ 0) : t.IsNearest p t.a := by
  rw [← t.along_zero_zero]
  refine h.isNearest_along le_rfl le_rfl (by linarith) fun v w hv hw _ => ?_
  linarith [mul_nonneg hv (neg_nonneg.mpr hx), mul_nonneg hw (neg_nonneg.mpr hy)]

theorem isNearest_b (hx : A ≤ x) (hy : y - B ≤ x - A) : t.IsNearest p t.b := by
  rw [← t.along_one_zero]
  refine h.isNearest_along zero_le_one le_rfl (by linarith) fun v w _ hw hvw => ?_
  linarith [mul_nonneg (show 0 ≤ 1 - v - w by linarith) (sub_nonneg.mpr hx),
    mul_nonneg hw (sub_nonneg.mpr hy)]

theorem isNearest_c (hy : C ≤ y) (hx : x - B ≤ y - C) : t.IsNearest p t.c := by
  rw [← t.along_zero_one]
  refine h.isNearest_along le_rfl zero_le_one (by linarith) fun v w hv _ hvw => ?_
  linarith [mul_nonneg (show 0 ≤ 1 - v - w by linarith) (sub_nonneg.mpr hy),
    mul_nonneg hv (sub_nonneg.mpr hx)]

theorem isNearest_ab (hA : 0 < A) (hside : A * y - B * x ≤ 0) (hx : 0 ≤ x) (hxA : x ≤ A) :
    t.IsNearest p (t.a + (t.b - t.a) * (x / A)) := by
  have hfoot : x / A * A = x := div_mul_cancel₀ x hA.ne'
  have hacross : 0 ≤ x / A * B - y := by
    rw [div_mul_eq_mul_div, sub_nonneg, le_div_iff₀ hA]
    linarith
  rw [← t.along_ab]
  refine h.isNearest_along (div_nonneg hx hA.le) le_rfl ?_ fun v w _ hw _ => ?_
  · rw [add_zero, div_le_one hA]
    exact hxA
  · rw [hfoot, zero_mul, zero_mul, add_zero, add_zero, sub_self, mul_zero, zero_add, sub_zero]
    exact mul_nonneg hw hacross

theorem isNearest_ac (hC : 0 < C) (hside : C * x - B * y ≤ 0) (hy : 0 ≤ y) (hyC : y ≤ C) :
    t.IsNearest p (t.a + (t.c - t.a) * (y / C)) := by
  have hfoot : y / C * C = y := div_mul_cancel₀ y hC.ne'
  have hacross : 0 ≤ y / C * B - x := by
    rw [div_mul_eq_mul_div, sub_nonneg, le_div_iff₀ hC]
    linarith
  rw [← t.along_ac]
  refine h.isNearest_along le_rfl (div_nonneg hy hC.le) ?_ fun v w hv _ _ => ?_
  · rw [zero_add, div_le_one hC]
    exact hyC
  · rw [hfoot, zero_mul, zero_mul, zero_add, zero_add, sub_self, mul_zero, add_zero, sub_zero]
    exact mul_nonneg hv hacross

theorem isNearest_bc (hE : 0 < A - 2 * B + C)
    (hside : A * C - B * B - (A * y - B * x) - (C * x - B * y) ≤ 0) (hb : x - A ≤ y - B)
    (hc : y - C ≤ x - B) :
    t.IsNearest p (t.b + (t.c - t.b) * ((y - B - (x - A)) / (A - 2 * B + C))) := by
  set u := (y - B - (x - A)) / (A - 2 * B + C) with hu
  have hfoot : u * (A - 2 * B + C) = y - B - (x - A) := div_mul_cancel₀ _ hE.ne'
  have hu₁ : u ≤ 1 := (div_le_one hE).mpr (by linarith)
  -- Along the side nothing is gained, and off it the slope is the weight of the corner opposite.
  have hslope : (1 - u) * A + u * B - x ≤ 0 := by
    have hscaled : ((1 - u) * A + u * B - x) * (A - 2 * B + C) =
        A * C - B * B - (A * y - B * x) - (C * x - B * y) := by
      linear_combination (B - A) * hfoot
    exact nonpos_of_mul_nonpos_left (hscaled ▸ hside) hE
  have hsame : (1 - u) * B + u * C - y = (1 - u) * A + u * B - x := by linarith
  rw [← t.along_bc]
  refine h.isNearest_along (by linarith) (div_nonneg (by linarith) hE.le) (by linarith)
    fun v w _ _ hvw => ?_
  rw [hsame]
  linarith [mul_nonneg (show 0 ≤ 1 - v - w by linarith) (neg_nonneg.mpr hslope)]

/-- The foot of the perpendicular, when no corner and no side is nearer. -/
theorem isNearest_face (hW : 0 < A * C - B * B) (hoff : OffRim A B C x y) :
    t.IsNearest p (t.along ((C * x - B * y) / (A * C - B * B))
      ((A * y - B * x) / (A * C - B * B))) := by
  obtain ⟨hA, hC, hE⟩ := h.sides_pos hW
  have hc := hoff.third_weight_nonneg hA hC hW
  have hb := hoff.second_weight_nonneg hA hC hW
  have ha := hoff.first_weight_nonneg hA hE hW
  refine h.isNearest_along (div_nonneg hb hW.le) (div_nonneg hc hW.le) ?_ fun v w _ _ _ => ?_
  · rw [← add_div, div_le_one hW]
    linarith
  · have hx : (C * x - B * y) / (A * C - B * B) * A + (A * y - B * x) / (A * C - B * B) * B =
        x := by
      rw [div_mul_eq_mul_div, div_mul_eq_mul_div, ← add_div, div_eq_iff hW.ne']
      ring
    have hy : (C * x - B * y) / (A * C - B * B) * B + (A * y - B * x) / (A * C - B * B) * C =
        y := by
      rw [div_mul_eq_mul_div, div_mul_eq_mul_div, ← add_div, div_eq_iff hW.ne']
      ring
    rw [hx, hy, sub_self, sub_self, mul_zero, mul_zero, add_zero]

/-- The tests are made on the ways from all three corners; here they are on those from `a`. -/
theorem closestPoint_eq : t.closestPoint p =
    if x ≤ 0 ∧ y ≤ 0 then t.a
    else if A ≤ x ∧ y - B ≤ x - A then t.b
    else if A * y ≤ B * x ∧ 0 ≤ x ∧ x ≤ A then t.a + (t.b - t.a) * (x / A)
    else if C ≤ y ∧ x - B ≤ y - C then t.c
    else if C * x ≤ B * y ∧ 0 ≤ y ∧ y ≤ C then t.a + (t.c - t.a) * (y / C)
    else if A * C - B * B - (A * y - B * x) ≤ C * x - B * y ∧ x - A ≤ y - B ∧ y - C ≤ x - B then
      t.b + (t.c - t.b) * ((y - B - (x - A)) / (A - 2 * B + C))
    else if |A * C - B * B| ≤ Scalar.minNormal then t.a
    else t.along ((C * x - B * y) / (A * C - B * B)) ((A * y - B * x) / (A * C - B * B)) := by
  obtain ⟨hvc, hvb, hva, hbc, hsum⟩ := tests_eq A B C x y
  simp only [closestPoint, along, Vec3.dot_sub_origin _ p t.a t.b,
    Vec3.dot_sub_origin _ p t.a t.c, h.bb, h.bc, h.cb, h.cc, h.bp, h.cp, hvc, hvb, hva, hbc, hsum,
    sub_sub_cancel, FieldScalar.abs_eq, sub_nonneg, sub_nonpos]

end Products

theorem exists_products (t : Triangle α) (p : Point α) : ∃ A B C x y, t.Products p A B C x y :=
  ⟨_, _, _, _, _, rfl, rfl, rfl, rfl, rfl⟩

/-- The closest point of a triangle with a normal belongs to it, and none of its points is
nearer. -/
theorem closestPoint_isNearest (hmin : 0 ≤ (Scalar.minNormal : α))
    (hnormal : Scalar.minNormal < t.cross.normSquared) (p : Point α) :
    t.IsNearest p (t.closestPoint p) := by
  obtain ⟨A, B, C, x, y, h⟩ := t.exists_products p
  rw [cross, Vec3.normSquared_cross, h.bb, h.bc, h.cc] at hnormal
  have hW : 0 < A * C - B * B := hmin.trans_lt hnormal
  obtain ⟨hA, hC, hE⟩ := h.sides_pos hW
  rw [h.closestPoint_eq, abs_of_pos hW]
  split_ifs with ha hb hab hc hac hbc hflat
  · exact h.isNearest_a ha.1 ha.2
  · exact h.isNearest_b hb.1 hb.2
  · exact h.isNearest_ab hA (sub_nonpos.mpr hab.1) hab.2.1 hab.2.2
  · exact h.isNearest_c hc.1 hc.2
  · exact h.isNearest_ac hC (sub_nonpos.mpr hac.1) hac.2.1 hac.2.2
  · exact h.isNearest_bc hE (sub_nonpos.mpr hbc.1) hbc.2.1 hbc.2.2
  · exact absurd hnormal (not_lt.mpr hflat)
  · exact h.isNearest_face hW (.of_not ha hb hab hc hac hbc)

/-- Along a side the closest point is between the corners, also when the side has no length. -/
theorem div_mem_unit {x A : α} (hx : 0 ≤ x) (hxA : x ≤ A) : 0 ≤ x / A ∧ x / A ≤ 1 :=
  ⟨div_nonneg hx (hx.trans hxA), div_le_one_of_le₀ hxA (hx.trans hxA)⟩

/-- The closest point of a triangle belongs to it, also when the triangle has no area. -/
theorem closestPoint_hasPoint (t : Triangle α) (p : Point α) : t.HasPoint (t.closestPoint p) := by
  have ha : t.HasPoint t.a := t.along_zero_zero ▸ hasPoint_along le_rfl le_rfl (by simp)
  have hb : t.HasPoint t.b := t.along_one_zero ▸ hasPoint_along zero_le_one le_rfl (by simp)
  have hc : t.HasPoint t.c := t.along_zero_one ▸ hasPoint_along le_rfl zero_le_one (by simp)
  obtain ⟨A, B, C, x, y, h⟩ := t.exists_products p
  have hW : 0 ≤ A * C - B * B := by
    rw [← h.bb, ← h.bc, ← h.cc, ← Vec3.normSquared_cross]
    exact Vec3.normSquared_nonneg _
  rw [h.closestPoint_eq]
  split_ifs with hfirst hsecond hab hthird hac hbc hflat
  · exact ha
  · exact hb
  · obtain ⟨hu, hu'⟩ := div_mem_unit hab.2.1 hab.2.2
    rw [← t.along_ab]
    exact hasPoint_along hu le_rfl (by rwa [add_zero])
  · exact hc
  · obtain ⟨hu, hu'⟩ := div_mem_unit hac.2.1 hac.2.2
    rw [← t.along_ac]
    exact hasPoint_along le_rfl hu (by rwa [zero_add])
  · obtain ⟨hu, hu'⟩ := div_mem_unit (x := y - B - (x - A)) (A := A - 2 * B + C)
      (by linarith) (by linarith)
    rw [← t.along_bc]
    exact hasPoint_along (sub_nonneg.mpr hu') hu (by rw [sub_add_cancel])
  · exact ha
  · -- Without an area the weights are quotients by zero, and they are zero.
    rcases hW.eq_or_lt with hzero | hpos
    · rw [← hzero, div_zero, div_zero, t.along_zero_zero]
      exact ha
    · exact (h.isNearest_face hpos (.of_not hfirst hsecond hab hthird hac hbc)).1

end Triangle

end SolidSurface
