import Mathlib.Tactic.FieldSimp
import Mathlib.Tactic.Linarith
import Mathlib.Tactic.LinearCombination
import Mathlib.Tactic.Ring
import SolidSurface.Proofs.Box
import SolidSurface.Proofs.Scalar.Fraction
import SolidSurface.Ray

/-! # Rays in exact arithmetic

Clipping keeps every position whose point lies in the box, and a ray strikes a triangle at a point
of the triangle, so a ray that misses a box strikes nothing inside it.
-/

namespace SolidSurface

variable {α : Type} [FieldScalar α]

namespace RayInterval

/-- Whether a position lies in a part of a ray. -/
def Holds (i : RayInterval α) (s : α) : Prop :=
  i.start ≤ s ∧ (s : WithTop α) ≤ i.stop.toWithTop

/-- A part of a ray consists of the positions with a property. Nothing is left when there are none;
otherwise the part begins with one of them. -/
inductive Consists (P : α → Prop) : Option (RayInterval α) → Prop where
  | nothing (hnone : ∀ s, ¬P s) : Consists P none
  | part {i : RayInterval α} (hstart : i.Holds i.start) (hiff : ∀ s, i.Holds s ↔ P s) :
      Consists P (some i)

namespace Consists

variable {P Q : α → Prop} {i? j? : Option (RayInterval α)}

theorem congr (h : Consists P i?) (hiff : ∀ s, P s ↔ Q s) (heq : i? = j?) : Consists Q j? := by
  subst heq
  cases h with
  | nothing hnone => exact .nothing fun s hs => hnone s ((hiff s).mpr hs)
  | part hstart hpart => exact .part hstart fun s => (hpart s).trans (hiff s)

/-- What one step leaves of a part is a part of what was there before. -/
theorem bind (h : Consists P i?) {f : RayInterval α → Option (RayInterval α)}
    (hf : ∀ i : RayInterval α, i.Holds i.start → Consists (fun s => i.Holds s ∧ Q s) (f i)) :
    Consists (fun s => P s ∧ Q s) (i?.bind f) := by
  cases h with
  | nothing hnone => exact .nothing fun s hs => hnone s hs.1
  | part hstart hiff => exact (hf _ hstart).congr (fun s => and_congr_left' (hiff s)) rfl

end Consists

end RayInterval

namespace Ray

variable {r : Ray α} {b : Box α} {t : Triangle α} {s : α}

theorem get_point (r : Ray α) (s : α) (a : Axis) :
    (r.point s).get a = r.origin.get a + r.direction.get a * s := by
  cases a <;> rfl

/-! ## Clipping -/

theorem between_iff {o d lower upper : α} (hd : d ≠ 0) (hle : lower ≤ upper) :
    (lower ≤ o + d * s ∧ o + d * s ≤ upper) ↔
      min ((lower - o) * (1 / d)) ((upper - o) * (1 / d)) ≤ s ∧
        s ≤ max ((lower - o) * (1 / d)) ((upper - o) * (1 / d)) := by
  have hle' : lower - o ≤ upper - o := sub_le_sub_right hle o
  rw [← sub_le_iff_le_add', ← le_sub_iff_add_le', mul_comm d s]
  rcases lt_or_gt_of_ne hd with hneg | hpos
  · -- Against the axis the upper bound is met first.
    have hturned := mul_le_mul_of_nonpos_right hle' (one_div_neg.mpr hneg).le
    rw [min_eq_right hturned, max_eq_left hturned, mul_one_div, mul_one_div,
      div_le_iff_of_neg hneg, le_div_iff_of_neg hneg, and_comm]
  · have hkept := mul_le_mul_of_nonneg_right hle' (one_div_pos.mpr hpos).le
    rw [min_eq_left hkept, max_eq_right hkept, mul_one_div, mul_one_div,
      div_le_iff₀ hpos, le_div_iff₀ hpos]

/-- Across an axis a slab has a nearer and a farther end. -/
theorem clip_eq_of_ne_zero {o d : α} (hd : d ≠ 0) (lower upper : α) (i : RayInterval α) :
    clip o d lower upper i =
      let j : RayInterval α :=
        ⟨Scalar.max i.start (min ((lower - o) * (1 / d)) ((upper - o) * (1 / d))),
          i.stop.capAt (max ((lower - o) * (1 / d)) ((upper - o) * (1 / d)))⟩
      if j.stop.lt (.val j.start) then none else some j := by
  have hbeq : ¬(d == 0) = true := fun h => hd ((FieldScalar.beq_iff _ _).mp h)
  rw [clip, if_neg hbeq, max_comm, ← Vec3.lesser_eq_min, ← Vec3.greater_eq_max]
  rfl

/-- A slab keeps exactly the positions whose points it holds. -/
theorem clip_consists {o d lower upper : α} (hle : lower ≤ upper) {i : RayInterval α}
    (hi : i.Holds i.start) : RayInterval.Consists
      (fun s => i.Holds s ∧ lower ≤ o + d * s ∧ o + d * s ≤ upper) (clip o d lower upper i) := by
  by_cases hd : d = 0
  · have hbeq : (d == 0) = true := (FieldScalar.beq_iff _ _).mpr hd
    rw [clip, if_pos hbeq]
    simp only [hd, zero_mul, add_zero]
    split_ifs with hout
    · refine .nothing fun s hs => ?_
      rcases hout with hout | hout
      · exact not_lt.mpr hs.2.1 hout
      · exact not_lt.mpr hs.2.2 hout
    · rw [not_or, not_lt, not_lt] at hout
      exact .part hi fun s => (and_iff_left hout).symm
  · rw [clip_eq_of_ne_zero hd]
    simp only [between_iff hd hle]
    generalize min ((lower - o) * (1 / d)) ((upper - o) * (1 / d)) = near
    generalize max ((lower - o) * (1 / d)) ((upper - o) * (1 / d)) = far
    have hholds : ∀ s, RayInterval.Holds ⟨Scalar.max i.start near, i.stop.capAt far⟩ s ↔
        i.Holds s ∧ near ≤ s ∧ s ≤ far := by
      intro s
      rw [RayInterval.Holds, RayInterval.Holds, Scalar.max_eq, Extended.toWithTop_capAt, max_le_iff,
        le_min_iff, WithTop.coe_le_coe, and_and_and_comm]
    split_ifs with hlt <;> rw [Extended.lt_eq_true_iff] at hlt
    · refine .nothing fun s hs => ?_
      obtain ⟨hstart, hstop⟩ := (hholds s).mpr hs
      exact not_le.mpr hlt ((WithTop.coe_le_coe.mpr hstart).trans hstop)
    · exact .part ⟨le_rfl, not_lt.mp hlt⟩ hholds

/-- The part of a ray inside a box consists of the positions ahead whose points the box holds. -/
theorem intervalIn?_consists (r : Ray α) (hb : ∀ a, b.lower.get a ≤ b.upper.get a) :
    RayInterval.Consists (fun s => 0 ≤ s ∧ b.contains (r.point s) = true) (r.intervalIn? b) := by
  have hall : RayInterval.Consists (fun s : α => 0 ≤ s) (some ⟨0, .infinity⟩) :=
    .part ⟨le_rfl, le_top⟩ fun _ => and_iff_left le_top
  have hclip := fun a (i : RayInterval α) (hi : i.Holds i.start) =>
    clip_consists (o := r.origin.get a) (d := r.direction.get a) (hb a) hi
  refine (((hall.bind (hclip .x)).bind (hclip .y)).bind (hclip .z)).congr (fun s => ?_) ?_
  · rw [Box.contains_iff, and_assoc, and_assoc]
    refine and_congr_right fun _ => ⟨fun h a => ?_, fun h => ⟨h .x, h .y, h .z⟩⟩
    rw [get_point]
    cases a
    · exact h.1
    · exact h.2.1
    · exact h.2.2
  · rw [Option.bind_assoc]
    rfl

/-- A ray misses a box when the box holds no point ahead on it, and only then; otherwise the points
ahead that the box holds are those from the first position of the clipped part to the last one. -/
theorem intervalIn?_exact (r : Ray α) {b : Box α} (hb : ∀ a, b.lower.get a ≤ b.upper.get a) :
    (r.intervalIn? b = none ↔ ∀ t, 0 ≤ t → b.contains (r.point t) = false) ∧
      ∀ i, r.intervalIn? b = some i → ∀ t, 0 ≤ t →
        (b.contains (r.point t) = true ↔ i.start ≤ t ∧ (t : WithTop α) ≤ i.stop.toWithTop) := by
  have hpart := r.intervalIn?_consists hb
  cases hi : r.intervalIn? b with
  | none =>
      rw [hi] at hpart
      cases hpart with
      | nothing hnone =>
          refine ⟨⟨fun _ t ht => ?_, fun _ => rfl⟩, fun _ h => nomatch h⟩
          exact Bool.eq_false_iff.mpr fun hin => hnone t ⟨ht, hin⟩
  | some i =>
      rw [hi] at hpart
      cases hpart with
      | part hstart hiff =>
          refine ⟨⟨fun h => (nomatch h), fun hnone => ?_⟩, ?_⟩
          · obtain ⟨hahead, hin⟩ := (hiff i.start).mp hstart
            rw [hnone i.start hahead] at hin
            cases hin
          · rintro j hj t ht
            obtain rfl := Option.some.inj hj
            exact (and_iff_right ht).symm.trans (hiff t).symm

/-- A ray along the edge of a flat box. -/
theorem intervalIn?_exact_grazing :
    let r : Ray Fraction := ⟨⟨-1, 1, 0⟩, ⟨2, 0, 0⟩⟩
    let b : Box Fraction := ⟨⟨0, 0, 0⟩, ⟨2, 1, 0⟩⟩
    (∀ a, b.lower.get a ≤ b.upper.get a) ∧ ∃ i, r.intervalIn? b = some i ∧ ∀ t, 0 ≤ t →
      (b.contains (r.point t) = true ↔ i.start ≤ t ∧ (t : WithTop Fraction) ≤ i.stop.toWithTop) := by
  intro r b
  have hb : ∀ a, b.lower.get a ≤ b.upper.get a := by
    rintro (_ | _ | _) <;> decide +kernel
  have hin : b.contains (r.point 1) = true := by decide +kernel
  obtain ⟨hmiss, hpart⟩ := r.intervalIn?_exact hb
  refine ⟨hb, ?_⟩
  cases hi : r.intervalIn? b with
  | none => exact absurd (hmiss.mp hi 1 zero_le_one) (by simp [hin])
  | some i => exact ⟨i, rfl, hpart i hi⟩

/-- A box keeps the positions ahead whose points it holds. -/
theorem exists_intervalIn?_eq_some (hs : 0 ≤ s) (h : b.contains (r.point s) = true) :
    ∃ i, r.intervalIn? b = some i ∧ i.start ≤ s := by
  have hin := Box.contains_iff.mp h
  have hpart := r.intervalIn?_consists fun a => (hin a).1.trans (hin a).2
  cases hi : r.intervalIn? b with
  | none =>
      rw [hi] at hpart
      cases hpart with
      | nothing hnone => exact absurd ⟨hs, h⟩ (hnone s)
  | some i =>
      rw [hi] at hpart
      cases hpart with
      | part _ hiff => exact ⟨i, rfl, ((hiff s).mpr ⟨hs, h⟩).1⟩

/-! ## Striking a triangle -/

/-- The three products that a crossing is made of solve the equation of the ray and the plane. -/
theorem cross_identity (d e₁ e₂ s : Vec3 α) (a : Axis) :
    e₁.dot (d.cross e₂) * s.get a + d.get a * e₂.dot (s.cross e₁) =
      e₁.get a * s.dot (d.cross e₂) + e₂.get a * d.dot (s.cross e₁) := by
  cases a <;> simp only [Vec3.get, Vec3.dot, Vec3.cross] <;> ring

/-- The quotients that a crossing is made of are the position and the weights of one point. -/
theorem get_point_crossing (r : Ray α) (t : Triangle α)
    (hne : (t.b - t.a).dot (r.direction.cross (t.c - t.a)) ≠ 0) (a : Axis) :
    let f := 1 / (t.b - t.a).dot (r.direction.cross (t.c - t.a))
    let u := f * (r.origin - t.a).dot (r.direction.cross (t.c - t.a))
    let v := f * r.direction.dot ((r.origin - t.a).cross (t.b - t.a))
    (r.point (f * (t.c - t.a).dot ((r.origin - t.a).cross (t.b - t.a)))).get a =
      (1 - u - v) * t.a.get a + u * t.b.get a + v * t.c.get a := by
  have hkey := cross_identity r.direction (t.b - t.a) (t.c - t.a) (r.origin - t.a) a
  rw [Vec3.get_sub, Vec3.get_sub, Vec3.get_sub] at hkey
  simp only [get_point]
  generalize (t.b - t.a).dot (r.direction.cross (t.c - t.a)) = n at hne hkey ⊢
  have hquotient : 1 / n * n = 1 := one_div_mul_cancel hne
  linear_combination (1 / n) * hkey - (r.origin.get a - t.a.get a) * hquotient

/-- A ray along the plane of a triangle gets the scale zero, for want of a quotient, and does not
cross. -/
theorem ne_zero_of_cross? {c : TriangleCrossing α} (h : r.cross? t = some c) :
    (t.b - t.a).dot (r.direction.cross (t.c - t.a)) ≠ 0 := by
  intro hzero
  simp only [cross?] at h
  split_ifs at h with hparallel hu hv hscale
  rw [hzero, div_zero, zero_mul] at hscale
  exact lt_irrefl _ hscale

/-- Where a ray crosses a triangle, its point is a weighted mean of the corners. -/
theorem cross?_spec {c : TriangleCrossing α} (h : r.cross? t = some c) :
    0 < c.scale ∧ 0 ≤ c.u ∧ 0 ≤ c.v ∧ c.u + c.v ≤ 1 ∧ ∀ a, (r.point c.scale).get a =
      (1 - c.u - c.v) * t.a.get a + c.u * t.b.get a + c.v * t.c.get a := by
  have hne := ne_zero_of_cross? h
  simp only [cross?] at h
  split_ifs at h with hparallel hu hv hscale
  cases h
  simp only [Scalar.inUnit, Bool.not_eq_true', Bool.not_eq_false, Bool.and_eq_true,
    decide_eq_true_eq] at hu
  rw [not_or, not_lt, not_lt] at hv
  exact ⟨hscale, hu.1, hv.1, hv.2, get_point_crossing r t hne⟩

/-- A ray strikes a triangle ahead of its origin and within the bounds of the triangle. -/
theorem strike?_spec {h : RayHit α} (hstrike : r.strike? t = some h) :
    0 < h.scale ∧ t.bounds.contains (r.point h.scale) = true := by
  simp only [strike?, bind, Option.bind_eq_some_iff] at hstrike
  obtain ⟨c, hcross, n, -, hhit⟩ := hstrike
  cases hhit
  obtain ⟨hscale, hu, hv, hsum, hpoint⟩ := cross?_spec hcross
  exact ⟨hscale, Triangle.contains_bounds (by linarith) hu hv (by ring) hpoint⟩

/-- A hit lies in every box around its triangle, no earlier than the ray enters the box. -/
theorem exists_intervalIn?_of_strike? {h : RayHit α} (hb : b.Covers t.bounds)
    (hstrike : r.strike? t = some h) : ∃ i, r.intervalIn? b = some i ∧ i.start ≤ h.scale := by
  obtain ⟨hscale, hin⟩ := strike?_spec hstrike
  exact exists_intervalIn?_eq_some hscale.le (hb _ hin)

/-- A ray that misses a box strikes nothing inside it. -/
theorem filterMap_strike?_eq_nil {ts : List (Triangle α)} (hb : ∀ t ∈ ts, b.Covers t.bounds)
    (hmiss : (r.intervalIn? b).isNone = true) : ts.filterMap r.strike? = [] := by
  rw [List.filterMap_eq_nil_iff]
  intro t ht
  cases h : r.strike? t with
  | none => rfl
  | some hit =>
      obtain ⟨i, hi, -⟩ := exists_intervalIn?_of_strike? (hb t ht) h
      rw [hi] at hmiss
      cases hmiss

end Ray

end SolidSurface
