import Mathlib.Tactic.GCongr
import Mathlib.Tactic.Linarith
import Mathlib.Tactic.Ring
import SolidSurface.Proofs.Scalar.Field
import SolidSurface.Triangle

/-! # Boxes

A box covers another if it holds all its points. The union of boxes covers each of them, whatever
the coordinates of the empty box are. The clamped point is a nearest one of a box that holds any, and
the bounds of a triangle hold its weighted corners.
-/

namespace SolidSurface

/-! ## In any arithmetic -/

namespace Box

section Scalar

variable {α : Type} [Scalar α] {b : Box α} {p : Point α}

theorem contains_iff : b.contains p = true ↔
    ∀ a, b.lower.get a ≤ p.get a ∧ p.get a ≤ b.upper.get a := by
  simp only [contains, Bool.and_eq_true, decide_eq_true_eq]
  constructor
  · rintro ⟨⟨hx, hy⟩, hz⟩ (_ | _ | _)
    · exact hx
    · exact hy
    · exact hz
  · intro h
    exact ⟨⟨h .x, h .y⟩, h .z⟩

theorem isEmpty_iff : b.isEmpty = true ↔ ∃ a, b.upper.get a < b.lower.get a := by
  simp only [isEmpty, Bool.or_eq_true, decide_eq_true_eq]
  constructor
  · rintro ((hx | hy) | hz)
    · exact ⟨.x, hx⟩
    · exact ⟨.y, hy⟩
    · exact ⟨.z, hz⟩
  · rintro ⟨_ | _ | _, h⟩
    · exact .inl (.inl h)
    · exact .inl (.inr h)
    · exact .inr h

/-- Along every axis `p` is at one of the bounds of `b` or between them. -/
def Includes (b : Box α) (p : Point α) : Prop :=
  ∀ a, p.get a = b.lower.get a ∨ p.get a = b.upper.get a ∨
    (b.lower.get a ≤ p.get a ∧ p.get a ≤ b.upper.get a)

/-- Clamping asks nothing of the point, which may have coordinates that are not numbers. -/
theorem includes_clamp (b : Box α) (p : Point α) : b.Includes (b.clamp p) := by
  intro a
  rw [clamp, Vec3.inf, Vec3.sup, Vec3.get_zipWith, Vec3.get_zipWith, Vec3.lesser, Vec3.greater]
  split_ifs with hlower hupper hupper
  · exact .inr (.inr ⟨hlower, hupper⟩)
  · exact .inr (.inl rfl)
  · exact .inl rfl
  · exact .inr (.inl rfl)

/-- A box with its own corners holds all that it includes. -/
theorem Includes.contains (h : b.Includes p) (hlower : b.contains b.lower = true)
    (hupper : b.contains b.upper = true) : b.contains p = true := by
  rw [contains_iff] at hlower hupper ⊢
  intro a
  rcases h a with heq | heq | hbetween
  · rw [heq]
    exact hlower a
  · rw [heq]
    exact hupper a
  · exact hbetween

end Scalar

end Box

/-! ## In exact arithmetic -/

variable {α : Type} [FieldScalar α]

theorem Vec3.lesser_eq_min (a b : α) : Vec3.lesser a b = min a b := by
  by_cases h : a ≤ b
  · rw [Vec3.lesser, if_pos h, min_eq_left h]
  · rw [Vec3.lesser, if_neg h, min_eq_right (le_of_not_ge h)]

theorem Vec3.greater_eq_max (a b : α) : Vec3.greater a b = max a b := by
  by_cases h : b ≤ a
  · rw [Vec3.greater, if_pos h, max_eq_left h]
  · rw [Vec3.greater, if_neg h, max_eq_right (le_of_not_ge h)]

@[simp] theorem Vec3.get_inf (v w : Vec3 α) (a : Axis) :
    (v.inf w).get a = min (v.get a) (w.get a) := by
  rw [Vec3.inf, Vec3.get_zipWith, Vec3.lesser_eq_min]

@[simp] theorem Vec3.get_sup (v w : Vec3 α) (a : Axis) :
    (v.sup w).get a = max (v.get a) (w.get a) := by
  rw [Vec3.sup, Vec3.get_zipWith, Vec3.greater_eq_max]

theorem Vec3.normSquared_sub_comm (v w : Vec3 α) : (v - w).normSquared = (w - v).normSquared := by
  simp only [normSquared, dot, x_sub, y_sub, z_sub]
  ring

theorem Vec3.get_eq_of_coincides {v w : Vec3 α} (h : v.coincides w = true) (a : Axis) :
    v.get a = w.get a := by
  simp only [Vec3.coincides, Bool.and_eq_true, FieldScalar.beq_iff] at h
  cases a
  · exact h.1.1
  · exact h.1.2
  · exact h.2

namespace Box

variable {b c d : Box α} {p : Point α}

theorem lower_le_upper_of_isValid (h : b.isValid = true) (a : Axis) :
    b.lower.get a ≤ b.upper.get a := by
  rw [isValid, Bool.and_eq_true, Bool.not_eq_true', ← Bool.not_eq_true, isEmpty_iff,
    not_exists] at h
  exact not_lt.mp (h.2 a)

/-- A box whose bounds are in order holds its own corners. -/
theorem contains_corners_of_le (h : ∀ a, b.lower.get a ≤ b.upper.get a) :
    b.contains b.lower = true ∧ b.contains b.upper = true :=
  ⟨contains_iff.mpr fun a => ⟨le_rfl, h a⟩, contains_iff.mpr fun a => ⟨h a, le_rfl⟩⟩

theorem spanning_contains_corners (p q : Point α) :
    (spanning p q).contains (spanning p q).lower = true ∧
      (spanning p q).contains (spanning p q).upper = true := by
  refine contains_corners_of_le fun a => ?_
  rw [spanning, Vec3.get_inf, Vec3.get_sup]
  exact (min_le_left _ _).trans (le_max_left _ _)

/-- Every point of `c` lies in `b`. -/
def Covers (b c : Box α) : Prop :=
  ∀ p, c.contains p = true → b.contains p = true

theorem Covers.refl (b : Box α) : b.Covers b :=
  fun _ hp => hp

theorem Covers.trans (hbc : b.Covers c) (hcd : c.Covers d) : b.Covers d :=
  fun p hp => hbc p (hcd p hp)

theorem covers_of_isEmpty (h : c.isEmpty = true) : b.Covers c := by
  obtain ⟨a, ha⟩ := isEmpty_iff.mp h
  intro p hp
  have hin := contains_iff.mp hp a
  exact absurd (hin.1.trans hin.2) (not_le.mpr ha)

theorem union_covers_left (b c : Box α) : (b.union c).Covers b := by
  rw [union]
  split_ifs with hb hc
  · exact covers_of_isEmpty hb
  · exact Covers.refl b
  · intro p hp
    rw [contains_iff] at hp ⊢
    intro a
    rw [Vec3.get_inf, Vec3.get_sup]
    exact ⟨(min_le_left _ _).trans (hp a).1, (hp a).2.trans (le_max_left _ _)⟩

theorem union_covers_right (b c : Box α) : (b.union c).Covers c := by
  rw [union]
  split_ifs with hb hc
  · exact Covers.refl c
  · exact covers_of_isEmpty hc
  · intro p hp
    rw [contains_iff] at hp ⊢
    intro a
    rw [Vec3.get_inf, Vec3.get_sup]
    exact ⟨(min_le_right _ _).trans (hp a).1, (hp a).2.trans (le_max_right _ _)⟩

theorem foldl_union_covers_acc (acc : Box α) (bs : List (Box α)) :
    (bs.foldl union acc).Covers acc := by
  induction bs generalizing acc with
  | nil => exact Covers.refl acc
  | cons b bs ih => exact (ih (acc.union b)).trans (union_covers_left acc b)

theorem unionAll_covers {bs : List (Box α)} (h : b ∈ bs) : (unionAll bs).Covers b := by
  obtain ⟨before, after, rfl⟩ := List.append_of_mem h
  rw [unionAll, List.foldl_append, List.foldl_cons]
  exact (foldl_union_covers_acc _ after).trans (union_covers_right _ b)

theorem covers_of_coincides (h : b.coincides c = true) : c.Covers b := by
  rw [coincides, Bool.and_eq_true] at h
  intro p hp
  rw [contains_iff] at hp ⊢
  intro a
  rw [← Vec3.get_eq_of_coincides h.1 a, ← Vec3.get_eq_of_coincides h.2 a]
  exact hp a

/-! ## Distance -/

/-- Between bounds nothing is nearer to a value than where the bounds clamp it. -/
theorem sub_clamp_mul_self_le {l u x y : α} (hl : l ≤ x) (hu : x ≤ u) :
    (y - min (max y l) u) * (y - min (max y l) u) ≤ (x - y) * (x - y) := by
  rcases le_total y l with hy | hy
  · rw [max_eq_right hy, min_eq_left (hl.trans hu), ← neg_sub l y, neg_mul_neg]
    exact mul_self_le_mul_self (sub_nonneg.mpr hy) (sub_le_sub_right hl y)
  · rw [max_eq_left hy]
    rcases le_total y u with hy' | hy'
    · rw [min_eq_left hy', sub_self, mul_zero]
      exact mul_self_nonneg _
    · rw [min_eq_right hy', ← neg_sub y x, neg_mul_neg]
      exact mul_self_le_mul_self (sub_nonneg.mpr hy') (sub_le_sub_left hu y)

/-- No point of a box is nearer than the box. -/
theorem distanceSquared_le {x : Point α} (hx : b.contains x = true) (p : Point α) :
    b.distanceSquared p ≤ (x - p).normSquared := by
  have haxis : ∀ a, (p.get a - (b.clamp p).get a) * (p.get a - (b.clamp p).get a) ≤
      (x.get a - p.get a) * (x.get a - p.get a) := by
    intro a
    rw [clamp, Vec3.get_inf, Vec3.get_sup]
    exact sub_clamp_mul_self_le (contains_iff.mp hx a).1 (contains_iff.mp hx a).2
  have hx := haxis .x
  have hy := haxis .y
  have hz := haxis .z
  simp only [Vec3.get] at hx hy hz
  simp only [distanceSquared, Vec3.normSquared, Vec3.dot, Vec3.x_sub, Vec3.y_sub, Vec3.z_sub]
  linarith

/-- The distance of a box is that of the clamped point. -/
theorem exists_contains_normSquared_eq {x : Point α} (hx : b.contains x = true) (p : Point α) :
    ∃ q, b.contains q = true ∧ (q - p).normSquared = b.distanceSquared p := by
  have hx := contains_iff.mp hx
  obtain ⟨hlower, hupper⟩ := contains_corners_of_le fun a => (hx a).1.trans (hx a).2
  exact ⟨b.clamp p, (includes_clamp b p).contains hlower hupper, Vec3.normSquared_sub_comm _ _⟩

end Box

/-! ## Triangles -/

/-- A weighted mean lies between bounds of what it is a mean of. -/
theorem le_weighted {m x y z u v w : α} (hu : 0 ≤ u) (hv : 0 ≤ v) (hw : 0 ≤ w)
    (hsum : u + v + w = 1) (hx : m ≤ x) (hy : m ≤ y) (hz : m ≤ z) :
    m ≤ u * x + v * y + w * z :=
  calc m = u * m + v * m + w * m := by rw [← add_mul, ← add_mul, hsum, one_mul]
    _ ≤ u * x + v * y + w * z := by gcongr

theorem weighted_le {m x y z u v w : α} (hu : 0 ≤ u) (hv : 0 ≤ v) (hw : 0 ≤ w)
    (hsum : u + v + w = 1) (hx : x ≤ m) (hy : y ≤ m) (hz : z ≤ m) :
    u * x + v * y + w * z ≤ m :=
  calc u * x + v * y + w * z ≤ u * m + v * m + w * m := by gcongr
    _ = m := by rw [← add_mul, ← add_mul, hsum, one_mul]

theorem Triangle.contains_bounds {t : Triangle α} {p : Point α} {u v w : α} (hu : 0 ≤ u)
    (hv : 0 ≤ v) (hw : 0 ≤ w) (hsum : u + v + w = 1)
    (hp : ∀ a, p.get a = u * t.a.get a + v * t.b.get a + w * t.c.get a) :
    t.bounds.contains p = true := by
  rw [Box.contains_iff]
  intro a
  simp only [Triangle.bounds, Vec3.get_inf, Vec3.get_sup, hp a]
  constructor
  · apply le_weighted hu hv hw hsum
    · exact (min_le_left _ _).trans (min_le_left _ _)
    · exact (min_le_left _ _).trans (min_le_right _ _)
    · exact min_le_right _ _
  · apply weighted_le hu hv hw hsum
    · exact (le_max_left _ _).trans (le_max_left _ _)
    · exact (le_max_right _ _).trans (le_max_left _ _)
    · exact le_max_right _ _

end SolidSurface
