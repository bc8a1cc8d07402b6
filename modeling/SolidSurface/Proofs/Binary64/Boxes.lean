import SolidSurface.Proofs.Binary64.Clipping

/-! # Boxes in floating point

The union of boxes with finite corners is made of their coordinates, without rounding. So boxes nest
exactly, and what a box leaves of a ray lies within what a larger box leaves of it.
-/

namespace SolidSurface

open Binary64

/-! ## Boxes -/

namespace Box

/-- A box with finite corners in their order. -/
structure Proper (b : Box Float) : Prop where
  lower_isFinite : ∀ a, (b.lower.get a).isFinite = true
  upper_isFinite : ∀ a, (b.upper.get a).isFinite = true
  le : ∀ a, b.lower.get a ≤ b.upper.get a

/-- Whether one box lies within another. -/
structure Within (b c : Box Float) : Prop where
  lower : ∀ a, c.lower.get a ≤ b.lower.get a
  upper : ∀ a, b.upper.get a ≤ c.upper.get a

/-- Whether both sides of a box across an axis pass through a point. -/
def IsFlatAt (b : Box Float) (p : Point Float) (a : Axis) : Prop :=
  (b.lower.get a == p.get a) = true ∧ (b.upper.get a == p.get a) = true

variable {b c d : Box Float}

theorem Within.trans (hbc : b.Within c) (hcd : c.Within d) : b.Within d :=
  ⟨fun a => le_trans (hcd.lower a) (hbc.lower a), fun a => le_trans (hbc.upper a) (hcd.upper a)⟩

theorem Proper.within_refl (hb : b.Proper) : b.Within b :=
  ⟨fun a => le_self (hb.lower_isFinite a), fun a => le_self (hb.upper_isFinite a)⟩

theorem Proper.isEmpty_eq_false (hb : b.Proper) : b.isEmpty = false := by
  simp only [isEmpty, Bool.or_eq_false_iff, decide_eq_false_iff_not]
  exact ⟨⟨not_lt_of_le (hb.le .x), not_lt_of_le (hb.le .y)⟩, not_lt_of_le (hb.le .z)⟩

theorem Proper.union (hb : b.Proper) (hc : c.Proper) :
    (b.union c).Proper ∧ b.Within (b.union c) ∧ c.Within (b.union c) := by
  have hlower := fun a => lesser_spec (hb.lower_isFinite a) (hc.lower_isFinite a)
  have hupper := fun a => greater_spec (hb.upper_isFinite a) (hc.upper_isFinite a)
  rw [Box.union, hb.isEmpty_eq_false, hc.isEmpty_eq_false]
  refine ⟨⟨fun a => ?_, fun a => ?_, fun a => ?_⟩, ⟨fun a => ?_, fun a => ?_⟩,
    ⟨fun a => ?_, fun a => ?_⟩⟩
  all_goals simp only [Bool.false_eq_true, if_false, Vec3.inf, Vec3.sup, Vec3.get_zipWith]
  · exact (hlower a).1
  · exact (hupper a).1
  · exact le_trans (hlower a).2.1 (le_trans (hb.le a) (hupper a).2.1)
  · exact (hlower a).2.1
  · exact (hupper a).2.1
  · exact (hlower a).2.2
  · exact (hupper a).2.2

end Box

namespace Triangle

variable {t : Triangle Float} (h : ∀ p ∈ t.corners, p.isFinite = true)

include h

theorem bounds_spec (a : Axis) : (t.bounds.lower.get a).isFinite = true ∧
    (t.bounds.upper.get a).isFinite = true ∧
    ∀ p ∈ t.corners, t.bounds.lower.get a ≤ p.get a ∧ p.get a ≤ t.bounds.upper.get a := by
  have hfinite : ∀ p ∈ t.corners, (p.get a).isFinite = true :=
    fun p hp => Vec3.all_eq_true_iff.mp (h p hp) a
  have ha := hfinite t.a (by simp [corners])
  have hb := hfinite t.b (by simp [corners])
  have hc := hfinite t.c (by simp [corners])
  obtain ⟨hlower, hla, hlb⟩ := lesser_spec ha hb
  obtain ⟨hupper, hua, hub⟩ := greater_spec ha hb
  obtain ⟨hlower', hl, hlc⟩ := lesser_spec hlower hc
  obtain ⟨hupper', hu, huc⟩ := greater_spec hupper hc
  simp only [bounds, Vec3.inf, Vec3.sup, Vec3.get_zipWith]
  refine ⟨hlower', hupper', fun p hp => ?_⟩
  simp only [corners, List.mem_cons, List.not_mem_nil, or_false] at hp
  rcases hp with rfl | rfl | rfl
  · exact ⟨le_trans hl hla, le_trans hua hu⟩
  · exact ⟨le_trans hl hlb, le_trans hub hu⟩
  · exact ⟨hlc, huc⟩

theorem proper_bounds : t.bounds.Proper where
  lower_isFinite a := (bounds_spec h a).1
  upper_isFinite a := (bounds_spec h a).2.1
  le a := by
    obtain ⟨-, -, hcorners⟩ := bounds_spec h a
    obtain ⟨hlower, hupper⟩ := hcorners t.a (by simp [corners])
    exact le_trans hlower hupper

end Triangle

/-! ## Parts of a ray in boxes -/

namespace Ray

/-- A ray with a finite origin and a finite direction. -/
structure IsFinite (r : Ray Float) : Prop where
  origin : r.origin.isFinite = true
  direction : r.direction.isFinite = true

variable {r : Ray Float} {b c : Box Float} {i : RayInterval Float}

theorem exists_clipAlong_of_intervalIn? (h : r.intervalIn? b = some i) :
    ∃ jx jy, r.clipAlong b .x ⟨0, .infinity⟩ = some jx ∧ r.clipAlong b .y jx = some jy ∧
      r.clipAlong b .z jy = some i := by
  simp only [intervalIn?, bind, Option.bind_eq_some_iff] at h
  obtain ⟨jx, hx, jy, hy, hz⟩ := h
  exact ⟨jx, jy, hx, hy, hz⟩

/-- A part of a ray in a box starts at a number, whatever the ray and the box. -/
theorem exists_start_of_intervalIn? (h : r.intervalIn? b = some i) :
    ∃ m, Binary64.units? i.start = some m := by
  obtain ⟨jx, jy, hx, hy, hz⟩ := exists_clipAlong_of_intervalIn? h
  obtain ⟨mx, hmx, -⟩ := exists_start_of_clip hx units?_scalar_zero
  obtain ⟨my, hmy, -⟩ := exists_start_of_clip hy hmx
  obtain ⟨m, hm, -⟩ := exists_start_of_clip hz hmy
  exact ⟨m, hm⟩

/-- What a box leaves of a ray is within what a larger box leaves of it, unless it begins at
infinity. The smaller box must not lie flat in a plane with the origin. -/
theorem exists_intervalIn?_within (hr : r.IsFinite) (hb : b.Proper) (hc : c.Proper)
    (hbc : b.Within c) (hflat : ∀ a, ¬b.IsFlatAt r.origin a)
    (h : r.intervalIn? b = some i) (hstart : Binary64.units? i.start ≠ some (limit : ℤ)) :
    ∃ j, r.intervalIn? c = some j ∧ i.Within j := by
  have hclip : ∀ a {i i' j : RayInterval Float}, i.Within i' → r.clipAlong b a i = some j →
      Binary64.units? j.start ≠ some (limit : ℤ) →
        ∃ j', r.clipAlong c a i' = some j' ∧ j.Within j' := fun a {_ _ _} hi h hstart =>
    (exists_clip_within (Vec3.all_eq_true_iff.mp hr.origin a) (hc.lower_isFinite a)
      (hb.lower_isFinite a) (hb.upper_isFinite a) (hc.upper_isFinite a) (hbc.lower a) (hb.le a)
      (hbc.upper a) (Vec3.all_eq_true_iff.mp hr.direction a) (hflat a) hi h).resolve_right hstart
  -- A part that begins at infinity does so after every further clipping.
  have hbefore : ∀ a {i j : RayInterval Float}, r.clipAlong b a i = some j →
      Binary64.units? j.start ≠ some (limit : ℤ) → Binary64.units? i.start ≠ some (limit : ℤ) := by
    intro a i j h hj hi
    obtain ⟨n, hn, hle⟩ := exists_start_of_clip h hi
    rw [hn, le_antisymm (units?_bounds hn).2 hle] at hj
    exact hj rfl
  have hall : RayInterval.Within ⟨0, .infinity⟩ ⟨0, .infinity⟩ :=
    ⟨0, limit, 0, limit, ⟨units?_scalar_zero, rfl⟩, ⟨units?_scalar_zero, rfl⟩, le_rfl, le_rfl,
      le_rfl⟩
  obtain ⟨ix, iy, hx, hy, hz⟩ := exists_clipAlong_of_intervalIn? h
  have hstarty := hbefore .z hz hstart
  obtain ⟨jx, hx', hix⟩ := hclip .x hall hx (hbefore .y hy hstarty)
  obtain ⟨jy, hy', hiy⟩ := hclip .y hix hy hstarty
  obtain ⟨jz, hz', hiz⟩ := hclip .z hiy hz hstart
  refine ⟨jz, ?_, hiz⟩
  simp only [intervalIn?, bind, Option.bind_eq_some_iff]
  exact ⟨jx, hx', jy, hy', hz'⟩

end Ray

end SolidSurface
