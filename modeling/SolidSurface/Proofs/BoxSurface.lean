import SolidSurface.Proofs.TriangleCrossing
import SolidSurface.Proofs.Mesh.Winding

/-! # The surface of a box

Each face of a box is cut along the diagonal on which its two fractional coordinates agree. Its
halves are told apart by the order of these coordinates, so the twelve halves belong in pairs to the
six orders of the three axes: each order sorts the fractional coordinates of a half on a lower face
and of a half on an upper one.
-/

namespace SolidSurface

/-- The bit that tells the upper corners of a box along an axis. -/
def Axis.bit : Axis → Nat
  | x => 0
  | y => 1
  | z => 2

theorem Axis.injective_iff {β : Type} {f : Axis → β} :
    Function.Injective f ↔ f .x ≠ f .y ∧ f .x ≠ f .z ∧ f .y ≠ f .z := by
  constructor
  · intro h
    exact ⟨h.ne (by decide), h.ne (by decide), h.ne (by decide)⟩
  · rintro ⟨hxy, hxz, hyz⟩ i j h
    cases i <;> cases j <;> first | rfl | exact absurd h ‹_› | exact absurd h.symm ‹_›

/-! ## Orders of the axes -/

structure AxisOrder where
  first : Axis
  second : Axis
  third : Axis
  deriving DecidableEq

namespace AxisOrder

def all : List AxisOrder :=
  [⟨.x, .y, .z⟩, ⟨.x, .z, .y⟩, ⟨.y, .x, .z⟩, ⟨.y, .z, .x⟩, ⟨.z, .x, .y⟩, ⟨.z, .y, .x⟩]

theorem forall_axis {P : Axis → Prop} {o : AxisOrder} (ho : o ∈ all) :
    (∀ i, P i) ↔ P o.first ∧ P o.second ∧ P o.third := by
  have hcover : ∀ o ∈ all, ∀ i, i = o.first ∨ i = o.second ∨ i = o.third := by
    intro o ho i
    revert o
    cases i <;> decide
  refine ⟨fun h => ⟨h _, h _, h _⟩, fun ⟨h₁, h₂, h₃⟩ i => ?_⟩
  rcases hcover o ho i with rfl | rfl | rfl
  · exact h₁
  · exact h₂
  · exact h₃

variable {α : Type} [LinearOrder α]

/-- The values at the axes do not decrease in the order. -/
def Sorts (o : AxisOrder) (f : Axis → α) : Prop :=
  f o.first ≤ f o.second ∧ f o.second ≤ f o.third

instance (o : AxisOrder) (f : Axis → α) : Decidable (o.Sorts f) :=
  inferInstanceAs (Decidable (_ ∧ _))

theorem exists_sorts (f : Axis → α) : ∃ o ∈ all, o.Sorts f := by
  rcases le_total (f .x) (f .y) with hxy | hxy <;> rcases le_total (f .y) (f .z) with hyz | hyz <;>
    rcases le_total (f .x) (f .z) with hxz | hxz <;>
    simp [all, Sorts, hxy, hyz, hxz]

/-- Three values are sorted by one order if they differ, by two if two of them agree and by all six
if they are the same. -/
theorem odd_countP_sorts (f : Axis → α) :
    all.countP (fun o => o.Sorts f) % 2 = 1 ↔ Function.Injective f := by
  rw [Axis.injective_iff]
  simp only [all, List.countP_cons, List.countP_nil, Sorts]
  rcases lt_trichotomy (f .x) (f .y) with hxy | hxy | hxy <;>
    rcases lt_trichotomy (f .y) (f .z) with hyz | hyz | hyz <;>
    rcases lt_trichotomy (f .x) (f .z) with hxz | hxz | hxz <;>
    grind

/-- Orders that are picked under a condition for sorting the values. -/
theorem countP_eq_ite {f : Axis → α} {c : Prop} [Decidable c] {picked : AxisOrder → Bool}
    (h : ∀ o ∈ all, picked o = true ↔ c ∧ o.Sorts f) :
    all.countP picked = if c then all.countP (fun o => o.Sorts f) else 0 := by
  split_ifs with hc
  · exact List.countP_congr fun o ho => by simp [h o ho, hc]
  · exact List.countP_eq_zero.mpr fun o ho => by simp [h o ho, hc]

/-- In an order that sorts them, values agree only if neighbours do. -/
theorem Sorts.injective_iff {o : AxisOrder} {f : Axis → α} (ho : o ∈ all) (h : o.Sorts f) :
    ¬Function.Injective f ↔ f o.first = f o.second ∨ f o.second = f o.third := by
  obtain ⟨h₁₂, h₂₃⟩ := h
  rw [Axis.injective_iff]
  revert h₁₂ h₂₃
  simp only [all, List.mem_cons, List.not_mem_nil, or_false] at ho
  rcases ho with rfl | rfl | rfl | rfl | rfl | rfl <;> grind

end AxisOrder

/-! ## Halves of faces -/

/-- Half of a face of a box, beside the diagonal: of the two fractional coordinates in the face one
is no greater than the other. -/
structure HalfFace where
  upper : Bool
  normal : Axis
  lesser : Axis
  greater : Axis
  deriving DecidableEq

namespace HalfFace

def mirror (h : HalfFace) : HalfFace :=
  ⟨h.upper, h.normal, h.greater, h.lesser⟩

/-- The first half of each face. -/
def firsts : List HalfFace :=
  [⟨false, .z, .x, .y⟩, ⟨true, .z, .y, .x⟩, ⟨false, .y, .z, .x⟩, ⟨true, .y, .x, .z⟩,
    ⟨false, .x, .y, .z⟩, ⟨true, .x, .z, .y⟩]

def all : List HalfFace :=
  firsts.flatMap fun h => [h, h.mirror]

def ofLower (o : AxisOrder) : HalfFace :=
  ⟨false, o.first, o.second, o.third⟩

def ofUpper (o : AxisOrder) : HalfFace :=
  ⟨true, o.third, o.first, o.second⟩

/-- Each order of the axes has one half on the lower faces and one on the upper ones. -/
theorem all_perm :
    all.Perm (AxisOrder.all.map ofLower ++ AxisOrder.all.map ofUpper) := by
  decide

theorem forall_axis {P : Axis → Prop} {h : HalfFace} (hh : h ∈ all) :
    (∀ i, P i) ↔ P h.normal ∧ P h.lesser ∧ P h.greater := by
  have horder : ∀ h ∈ all, ⟨h.normal, h.lesser, h.greater⟩ ∈ AxisOrder.all := by decide
  exact AxisOrder.forall_axis (horder h hh)

/-- The corner of the half where both fractional coordinates in the face are zero, the one where the
greater is one, and the one where both are. -/
def near (h : HalfFace) : Nat :=
  if h.upper then 2 ^ h.normal.bit else 0

def beside (h : HalfFace) : Nat :=
  h.near + 2 ^ h.greater.bit

def far (h : HalfFace) : Nat :=
  h.beside + 2 ^ h.lesser.bit

/-- Which corners of a half are upper ones along each axis. -/
theorem testBit_corners {h : HalfFace} (hh : h ∈ all) :
    (h.near.testBit h.normal.bit = h.upper ∧ h.beside.testBit h.normal.bit = h.upper ∧
        h.far.testBit h.normal.bit = h.upper) ∧
      (h.near.testBit h.lesser.bit = false ∧ h.beside.testBit h.lesser.bit = false ∧
        h.far.testBit h.lesser.bit = true) ∧
      h.near.testBit h.greater.bit = false ∧ h.beside.testBit h.greater.bit = true ∧
        h.far.testBit h.greater.bit = true := by
  revert h
  decide

end HalfFace

/-! ## Points of the surface -/

namespace Triangle

variable {α : Type}

/-- The same triangle seen from behind. -/
def turned (t : Triangle α) : Triangle α :=
  ⟨t.a, t.c, t.b⟩

variable [FieldScalar α] {t : Triangle α} {p : Point α}

/-- Whether a point lies on a side of a triangle, its ends included. -/
def OnSide (t : Triangle α) (p : Point α) : Prop :=
  ∃ side ∈ t.sides, ∃ w : α, 0 ≤ w ∧ w ≤ 1 ∧ p = side.1 + (side.2 - side.1) * w

/-- A point of a triangle with the weights of the corners that it is the mean of. -/
def IsMean (t : Triangle α) (p : Point α) (u v w : α) : Prop :=
  0 ≤ u ∧ 0 ≤ v ∧ 0 ≤ w ∧ u + v + w = 1 ∧
    ∀ i, p.get i = u * t.a.get i + v * t.b.get i + w * t.c.get i

theorem hasPoint_iff_isMean : t.HasPoint p ↔ ∃ u v w, t.IsMean p u v w :=
  .rfl

/-- The sides hold the points of which one weight is zero. -/
theorem onSide_iff : t.OnSide p ↔ ∃ u v w, t.IsMean p u v w ∧ (u = 0 ∨ v = 0 ∨ w = 0) := by
  have hget : ∀ (a b : Point α) (w : α) i,
      (a + (b - a) * w).get i = (1 - w) * a.get i + w * b.get i := by
    intro a b w i
    rw [Vec3.get_add, Vec3.get_scale, Vec3.get_sub]
    ring
  constructor
  · rintro ⟨side, hside, w, hw₀, hw₁, rfl⟩
    have hw₁ := sub_nonneg.mpr hw₁
    simp only [sides, List.mem_cons, List.not_mem_nil, or_false] at hside
    rcases hside with rfl | rfl | rfl
    · exact ⟨1 - w, w, 0, ⟨hw₁, hw₀, le_rfl, by ring, fun i => by rw [hget]; ring⟩,
        .inr (.inr rfl)⟩
    · exact ⟨0, 1 - w, w, ⟨le_rfl, hw₁, hw₀, by ring, fun i => by rw [hget]; ring⟩, .inl rfl⟩
    · exact ⟨w, 0, 1 - w, ⟨hw₀, le_rfl, hw₁, by ring, fun i => by rw [hget]; ring⟩,
        .inr (.inl rfl)⟩
  · rintro ⟨u, v, w, ⟨hu, hv, hw, hsum, hp⟩, rfl | rfl | rfl⟩
    · refine ⟨(t.b, t.c), by simp [sides], w, hw, by linarith, Vec3.ext_get fun i => ?_⟩
      rw [hp, hget, show v = 1 - w by linarith]
      ring
    · refine ⟨(t.c, t.a), by simp [sides], u, hu, by linarith, Vec3.ext_get fun i => ?_⟩
      rw [hp, hget, show w = 1 - u by linarith]
      ring
    · refine ⟨(t.a, t.b), by simp [sides], v, hv, by linarith, Vec3.ext_get fun i => ?_⟩
      rw [hp, hget, show u = 1 - v by linarith]
      ring

theorem IsMean.turned {u v w : α} (h : t.IsMean p u v w) : t.turned.IsMean p u w v := by
  obtain ⟨hu, hv, hw, hsum, hp⟩ := h
  refine ⟨hu, hw, hv, by rw [← hsum, add_right_comm], fun i => ?_⟩
  rw [hp i, Triangle.turned, add_right_comm]

theorem hasPoint_turned : t.turned.HasPoint p ↔ t.HasPoint p := by
  have h : ∀ {t : Triangle α}, t.HasPoint p → t.turned.HasPoint p :=
    fun ⟨u, v, w, hmean⟩ => ⟨u, w, v, IsMean.turned hmean⟩
  exact ⟨h, h⟩

theorem onSide_turned : t.turned.OnSide p ↔ t.OnSide p := by
  have h : ∀ {t : Triangle α}, t.OnSide p → t.turned.OnSide p := by
    intro t hside
    obtain ⟨u, v, w, hmean, hzero⟩ := onSide_iff.mp hside
    exact onSide_iff.mpr ⟨u, w, v, hmean.turned, hzero.imp_right Or.symm⟩
  exact ⟨h, h⟩

end Triangle

variable {α : Type} [FieldScalar α]

namespace Box

/-- The box is thick along every axis. -/
def IsThick (b : Box α) : Prop :=
  ∀ i, b.lower.get i < b.upper.get i

/-- A coordinate in units of the box: zero on the lower face and one on the upper face. -/
def fraction (b : Box α) (p : Point α) (i : Axis) : α :=
  (p.get i - b.lower.get i) / (b.upper.get i - b.lower.get i)

variable {b : Box α} {t : Triangle α} {p : Point α}

omit [FieldScalar α] in
theorem get_corner [Scalar α] (b : Box α) (c : Nat) (i : Axis) :
    (b.corner c).get i = if c.testBit i.bit then b.upper.get i else b.lower.get i := by
  cases i <;> rfl

theorem get_size (b : Box α) (i : Axis) :
    b.size.get i = b.upper.get i - b.lower.get i :=
  Vec3.get_sub _ _ _

theorem fraction_corner (hb : b.IsThick) (c : Nat) (i : Axis) :
    b.fraction (b.corner c) i = if c.testBit i.bit then 1 else 0 := by
  rw [fraction, get_corner]
  split_ifs
  · exact div_self (sub_pos.mpr (hb i)).ne'
  · rw [sub_self, zero_div]

/-- Fractional coordinates have the weights of the coordinates. -/
theorem fraction_eq_weighted_iff (hb : b.IsThick) {x y z : Point α} {u v w : α}
    (hsum : u + v + w = 1) (i : Axis) :
    b.fraction p i = u * b.fraction x i + v * b.fraction y i + w * b.fraction z i ↔
      p.get i = u * x.get i + v * y.get i + w * z.get i := by
  have hsize : b.upper.get i - b.lower.get i ≠ 0 := (sub_pos.mpr (hb i)).ne'
  simp only [fraction]
  rw [mul_div_assoc', mul_div_assoc', mul_div_assoc', ← add_div, ← add_div,
    div_left_inj' hsize]
  constructor
  · intro h
    linear_combination h - b.lower.get i * hsum
  · intro h
    linear_combination h + b.lower.get i * hsum

end Box

namespace HalfFace

variable {h : HalfFace} {b : Box α} {p : Point α}

def triangle (h : HalfFace) (b : Box α) : Triangle α :=
  ⟨b.corner h.near, b.corner h.beside, b.corner h.far⟩

/-- The fractional coordinates of the points of a half. -/
structure Holds (h : HalfFace) (f : Axis → α) : Prop where
  normal : f h.normal = if h.upper then 1 else 0
  lesser_nonneg : 0 ≤ f h.lesser
  le : f h.lesser ≤ f h.greater
  greater_le_one : f h.greater ≤ 1

/-- The fractional coordinates of the points on the sides of a half: one of those in the face is zero
or one, or both are the same. -/
def OnRim (h : HalfFace) (f : Axis → α) : Prop :=
  h.Holds f ∧ (f h.lesser = 0 ∨ f h.lesser = f h.greater ∨ f h.greater = 1)

/-- The weights of a point of a half are the differences of its fractional coordinates. -/
theorem weighted_iff (hh : h ∈ all) (hb : b.IsThick) {u v w : α} (hsum : u + v + w = 1) :
    (∀ i, p.get i = u * (h.triangle b).a.get i + v * (h.triangle b).b.get i +
      w * (h.triangle b).c.get i) ↔
    b.fraction p h.normal = (if h.upper then 1 else 0) ∧ b.fraction p h.lesser = w ∧
      b.fraction p h.greater = v + w := by
  obtain ⟨⟨hn₁, hn₂, hn₃⟩, ⟨hl₁, hl₂, hl₃⟩, hg₁, hg₂, hg₃⟩ := testBit_corners hh
  simp only [← Box.fraction_eq_weighted_iff hb hsum, triangle, Box.fraction_corner hb]
  rw [forall_axis hh, hn₁, hn₂, hn₃, hl₁, hl₂, hl₃, hg₁, hg₂, hg₃, ← add_mul, ← add_mul, hsum]
  simp

theorem exists_isMean_iff (hh : h ∈ all) (hb : b.IsThick) (P : α → α → α → Prop) :
    (∃ u v w, (h.triangle b).IsMean p u v w ∧ P u v w) ↔
      h.Holds (b.fraction p) ∧ P (1 - b.fraction p h.greater)
        (b.fraction p h.greater - b.fraction p h.lesser) (b.fraction p h.lesser) := by
  constructor
  · rintro ⟨u, v, w, ⟨hu, hv, hw, hsum, hp⟩, hP⟩
    obtain ⟨hn, hl, hg⟩ := (weighted_iff hh hb hsum).mp hp
    refine ⟨⟨hn, by linarith, by linarith, by linarith⟩, ?_⟩
    rwa [hg, hl, show 1 - (v + w) = u by linarith, add_sub_cancel_right]
  · rintro ⟨hp, hP⟩
    have hsum : 1 - b.fraction p h.greater + (b.fraction p h.greater - b.fraction p h.lesser) +
        b.fraction p h.lesser = 1 := by ring
    exact ⟨_, _, _, ⟨sub_nonneg.mpr hp.greater_le_one, sub_nonneg.mpr hp.le, hp.lesser_nonneg,
      hsum, (weighted_iff hh hb hsum).mpr ⟨hp.normal, rfl, by ring⟩⟩, hP⟩

theorem hasPoint_triangle (hh : h ∈ all) (hb : b.IsThick) :
    (h.triangle b).HasPoint p ↔ h.Holds (b.fraction p) := by
  rw [Triangle.hasPoint_iff_isMean]
  simpa only [and_true] using exists_isMean_iff (p := p) hh hb fun _ _ _ => True

theorem onSide_triangle (hh : h ∈ all) (hb : b.IsThick) :
    (h.triangle b).OnSide p ↔ h.OnRim (b.fraction p) := by
  rw [Triangle.onSide_iff, exists_isMean_iff hh hb fun u v w => u = 0 ∨ v = 0 ∨ w = 0]
  refine and_congr_right fun _ => ?_
  rw [sub_eq_zero, sub_eq_zero, eq_comm (a := (1 : α)), eq_comm (a := b.fraction p h.greater)
    (b := b.fraction p h.lesser)]
  tauto

end HalfFace

/-! ## How a half lies -/

theorem Ray.slant_eq (d : Vec3 α) (t : Triangle α) : slant d t = -d.dot t.cross := by
  simp only [slant, Triangle.cross, Vec3.dot, Vec3.cross]
  ring

theorem Ray.slant_turned (d : Vec3 α) (t : Triangle α) : slant d t.turned = -slant d t := by
  simp only [Triangle.turned, slant, Vec3.dot, Vec3.cross]
  ring

theorem Ray.discerns_turned {d : Vec3 α} {t : Triangle α} :
    Discerns d t.turned ↔ Discerns d t := by
  have h : ∀ {t : Triangle α}, Discerns d t → Discerns d t.turned := by
    rintro t ⟨hnormal, hparallel⟩
    have hsquare : t.turned.cross.normSquared = t.cross.normSquared := by
      simp only [Triangle.turned, Triangle.cross, Vec3.normSquared, Vec3.dot, Vec3.cross]
      ring
    rw [Triangle.normal?_ne_none_iff] at hnormal
    refine ⟨by rwa [Triangle.normal?_ne_none_iff, hsquare], ?_⟩
    rw [slant_turned, abs_neg, Triangle.turned, mul_right_comm parallelTolerance]
    exact hparallel
  exact ⟨h, h⟩

theorem Ray.isSome_strike?_turned {r : Ray α} {t : Triangle α} (hseen : Discerns r.direction t)
    (hslant : slant r.direction t ≠ 0) :
    (r.strike? t.turned).isSome = (r.strike? t).isSome := by
  have hslant' : slant r.direction t.turned ≠ 0 := by
    rwa [slant_turned, neg_ne_zero]
  rw [Bool.eq_iff_iff, isSome_strike?_iff (discerns_turned.mpr hseen) hslant',
    isSome_strike?_iff hseen hslant]
  simp only [Triangle.hasPoint_turned]

namespace HalfFace

variable {h : HalfFace} {b : Box α}

theorem distinct (hh : h ∈ all) :
    h.normal ≠ h.lesser ∧ h.normal ≠ h.greater ∧ h.lesser ≠ h.greater := by
  revert h
  decide

theorem dot_eq (hh : h ∈ all) (v w : Vec3 α) : v.dot w = v.get h.normal * w.get h.normal +
    v.get h.lesser * w.get h.lesser + v.get h.greater * w.get h.greater := by
  have hdistinct := distinct hh
  obtain ⟨upper, n, l, g⟩ := h
  cases n <;> cases l <;> cases g <;> simp only [ne_eq, not_true_eq_false, false_and, and_false] at *
  all_goals simp only [Vec3.dot, Vec3.get]
  all_goals ring

/-- From the near corner one side of a half goes along a side of the face and one along the
diagonal. -/
theorem get_sides (hh : h ∈ all) (b : Box α) :
    (((h.triangle b).b - (h.triangle b).a).get h.normal = 0 ∧
      ((h.triangle b).b - (h.triangle b).a).get h.lesser = 0 ∧
      ((h.triangle b).b - (h.triangle b).a).get h.greater = b.size.get h.greater) ∧
    ((h.triangle b).c - (h.triangle b).a).get h.normal = 0 ∧
      ((h.triangle b).c - (h.triangle b).a).get h.lesser = b.size.get h.lesser ∧
      ((h.triangle b).c - (h.triangle b).a).get h.greater = b.size.get h.greater := by
  obtain ⟨⟨hn₁, hn₂, hn₃⟩, ⟨hl₁, hl₂, hl₃⟩, hg₁, hg₂, hg₃⟩ := testBit_corners hh
  simp [triangle, Vec3.get_sub, Box.get_corner, Box.get_size, hn₁, hn₂, hn₃, hl₁, hl₂, hl₃, hg₁,
    hg₂, hg₃]

theorem get_cross (hh : h ∈ all) (b : Box α) :
    ((h.triangle b).cross.get h.normal = b.size.get h.lesser * b.size.get h.greater ∨
      (h.triangle b).cross.get h.normal = -(b.size.get h.lesser * b.size.get h.greater)) ∧
    (h.triangle b).cross.get h.lesser = 0 ∧ (h.triangle b).cross.get h.greater = 0 := by
  obtain ⟨⟨h₁, h₂, h₃⟩, h₄, h₅, h₆⟩ := get_sides hh b
  simp only [Triangle.cross]
  generalize (h.triangle b).b - (h.triangle b).a = e₁ at h₁ h₂ h₃ ⊢
  generalize (h.triangle b).c - (h.triangle b).a = e₂ at h₄ h₅ h₆ ⊢
  have hdistinct := distinct hh
  obtain ⟨upper, n, l, g⟩ := h
  cases n <;> cases l <;> cases g <;>
    simp only [Vec3.get, ne_eq, not_true_eq_false, false_and, and_false] at *
  all_goals simp [Vec3.cross, *, mul_comm]

theorem normSquared_cross (hh : h ∈ all) (b : Box α) :
    (h.triangle b).cross.normSquared = (b.size.get h.lesser * b.size.get h.greater) *
      (b.size.get h.lesser * b.size.get h.greater) := by
  obtain ⟨hn, hl, hg⟩ := get_cross hh b
  rw [Vec3.normSquared, dot_eq hh, hl, hg]
  rcases hn with hn | hn <;> rw [hn] <;> ring

theorem abs_slant (hh : h ∈ all) (b : Box α) (d : Vec3 α) :
    |Ray.slant d (h.triangle b)| =
      |d.get h.normal * (b.size.get h.lesser * b.size.get h.greater)| := by
  obtain ⟨hn, hl, hg⟩ := get_cross hh b
  rw [Ray.slant_eq, abs_neg, dot_eq hh, hl, hg, mul_zero, mul_zero, add_zero, add_zero]
  rcases hn with hn | hn <;> rw [hn]
  rw [mul_neg, abs_neg]

end HalfFace

namespace Mesh

variable {κ : Type} [BEq κ] [Hashable κ] {p q : Point α}

theorem triangles_ofBox (p q : Point α) :
    (ofBox p q : Mesh α κ).triangles = HalfFace.firsts.flatMap fun h =>
      [h.triangle (.spanning p q), (h.mirror.triangle (.spanning p q)).turned] := by
  rw [ofBox, triangles_ofList]
  rfl

/-- What does not depend on the side from which triangles are seen holds of the surface of a box if
it holds of the halves of its faces. -/
theorem forall_triangles_ofBox {P : Triangle α → Prop} (hturned : ∀ t, P t.turned ↔ P t) :
    (∀ t ∈ (ofBox p q : Mesh α κ).triangles, P t) ↔
      ∀ h ∈ HalfFace.all, P (h.triangle (.spanning p q)) := by
  simp [triangles_ofBox, HalfFace.all, List.forall_mem_flatMap, hturned, -List.mem_flatMap]

theorem exists_triangles_ofBox {P : Triangle α → Prop} (hturned : ∀ t, P t.turned ↔ P t) :
    (∃ t ∈ (ofBox p q : Mesh α κ).triangles, P t) ↔
      ∃ h ∈ HalfFace.all, P (h.triangle (.spanning p q)) := by
  have h := forall_triangles_ofBox (κ := κ) (p := p) (q := q) (P := fun t => ¬P t)
    fun t => not_congr (hturned t)
  simpa only [not_forall, not_not, exists_prop] using not_congr h

theorem countP_triangles_ofBox {P : Triangle α → Bool}
    (hturned : ∀ h ∈ HalfFace.all, P (h.triangle (.spanning p q)).turned =
      P (h.triangle (.spanning p q))) :
    (ofBox p q : Mesh α κ).triangles.countP P =
      HalfFace.all.countP fun h => P (h.triangle (.spanning p q)) := by
  rw [triangles_ofBox, HalfFace.all, List.countP_flatMap, List.countP_flatMap]
  refine congrArg List.sum (List.map_congr_left fun h hh => ?_)
  have hmirror : h.mirror ∈ HalfFace.all :=
    List.mem_flatMap.mpr ⟨h, hh, List.mem_cons_of_mem _ (List.mem_singleton_self _)⟩
  simp only [Function.comp_apply, List.countP_cons, List.countP_nil, hturned _ hmirror]

end Mesh

end SolidSurface
