import SolidSurface.Proofs.Binary64.Alike
import SolidSurface.Ray

/-! # Rays from the plane of a triangle

A ray that starts in the plane of a triangle across an axis strikes nothing there, for its position
would be a sum of products with zeros. Such a sum is zero or no number, however long the triangle.
-/

namespace SolidSurface

namespace Binary64

open Float.Model
open Float.Model.UnpackedFloat

/-! ## Zeros -/

/-- A zero or no number. -/
inductive Vanishing : UnpackedFloat → Prop
  | notANumber : Vanishing .notANumber
  | zero (s : Sign) : Vanishing (.zero s)

namespace Vanishing

variable {u v : UnpackedFloat}

theorem mul_left (f : Format) (hu : Vanishing u) (v : UnpackedFloat) :
    Vanishing (UnpackedFloat.mul f u v) := by
  cases hu with
  | notANumber => exact .notANumber
  | zero s =>
      cases v with
      | notANumber => exact .notANumber
      | infinity t => exact .notANumber
      | zero t => exact .zero _
      | finite t n e hn => exact .zero _

theorem mul_right (f : Format) (u : UnpackedFloat) (hv : Vanishing v) :
    Vanishing (UnpackedFloat.mul f u v) := by
  cases hv with
  | notANumber =>
      cases u with
      | _ => exact .notANumber
  | zero t =>
      cases u with
      | notANumber => exact .notANumber
      | infinity s => exact .notANumber
      | zero s => exact .zero _
      | finite s m e hm => exact .zero _

theorem add (f : Format) (hu : Vanishing u) (hv : Vanishing v) :
    Vanishing (UnpackedFloat.add f u v) := by
  cases hu with
  | notANumber => exact .notANumber
  | zero s =>
      cases hv with
      | notANumber => exact .notANumber
      | zero t =>
          rw [UnpackedFloat.add]
          split <;> exact .zero _

theorem sub (f : Format) (hu : Vanishing u) (hv : Vanishing v) :
    Vanishing (UnpackedFloat.sub f u v) := by
  cases hu with
  | notANumber => exact .notANumber
  | zero s =>
      cases hv with
      | notANumber => exact .notANumber
      | zero t =>
          rw [UnpackedFloat.sub]
          split <;> exact .zero _

end Vanishing

/-- A zero or no number. -/
def IsNull (x : Float) : Prop :=
  Vanishing x.toModel.unpack

namespace IsNull

variable {x y : Float}

theorem of_vanishing {u : UnpackedFloat} (h : Vanishing u) : IsNull (.ofModel (.pack u)) := by
  cases h with
  | notANumber => exact .notANumber
  | zero s =>
      cases s with
      | _ => exact .zero _

theorem mul_left (hx : IsNull x) (y : Float) : IsNull (x * y) :=
  of_vanishing (Vanishing.mul_left _ hx _)

theorem mul_right (x : Float) (hy : IsNull y) : IsNull (x * y) :=
  of_vanishing (Vanishing.mul_right _ _ hy)

theorem add (hx : IsNull x) (hy : IsNull y) : IsNull (x + y) :=
  of_vanishing (Vanishing.add _ hx hy)

theorem sub (hx : IsNull x) (hy : IsNull y) : IsNull (x - y) :=
  of_vanishing (Vanishing.sub _ hx hy)

theorem not_pos (hx : IsNull x) : ¬0 < x := by
  intro hpos
  obtain ⟨m, n, hm, hn, hlt⟩ := lt_iff.mp hpos
  cases units?_zero.symm.trans hm
  change unpackedUnits? x.toModel.unpack = some n at hn
  rw [IsNull] at hx
  cases hu : x.toModel.unpack with
  | notANumber =>
      rw [hu] at hn
      cases hn
  | zero s =>
      rw [hu] at hn
      cases hn
      exact lt_irrefl 0 hlt
  | _ =>
      rw [hu] at hx
      cases hx

end IsNull

theorem isNull_of_units (x : Float) (h : units? x = some 0) : IsNull x := by
  change unpackedUnits? x.toModel.unpack = some 0 at h
  rw [IsNull]
  cases hu : x.toModel.unpack with
  | notANumber => exact .notANumber
  | zero s => exact .zero s
  | infinity s =>
      rw [hu] at h
      exact absurd (Option.some.inj h) (ne_zero_of_apply limit_pos)
  | finite s m e hm =>
      rw [hu] at h
      exact absurd (Option.some.inj h) (ne_zero_of_apply (magnitude_pos hm e))

/-- The difference of two floats that equal the same finite one. -/
theorem isNull_sub {o x y : Float} (ho : o.isFinite = true) (hx : Alike o x) (hy : Alike o y) :
    IsNull (x - y) := by
  have hpos := limit_pos
  obtain ⟨m, hm, -⟩ := isFinite_iff.mp ho
  apply isNull_of_units
  rw [units?_sub (hx.isFinite_eq ▸ ho) (hy.isFinite_eq ▸ ho) (hx ▸ hm) (hy ▸ hm), sub_self,
    roundedInt_zero, clamp_of_lt (by omega) (by omega)]

end Binary64

open Binary64

/-! ## Triangles across an axis -/

variable {v w : Vec3 Float}

theorem isNull_dot (h : ∀ a, IsNull (v.get a) ∨ IsNull (w.get a)) : IsNull (v.dot w) := by
  have hproduct : ∀ a, IsNull (v.get a * w.get a) := by
    intro a
    rcases h a with hv | hw
    · exact hv.mul_left _
    · exact IsNull.mul_right _ hw
  exact ((hproduct .x).add (hproduct .y)).add (hproduct .z)

theorem isNull_cross {a b : Axis} (hab : b ≠ a) (hv : IsNull (v.get a)) (hw : IsNull (w.get a)) :
    IsNull ((v.cross w).get b) := by
  cases a with
  | x =>
      cases b with
      | x => exact absurd rfl hab
      | y => exact (IsNull.mul_right _ hw).sub (hv.mul_left _)
      | z => exact (hv.mul_left _).sub (IsNull.mul_right _ hw)
  | y =>
      cases b with
      | x => exact (hv.mul_left _).sub (IsNull.mul_right _ hw)
      | y => exact absurd rfl hab
      | z => exact (IsNull.mul_right _ hw).sub (hv.mul_left _)
  | z =>
      cases b with
      | x => exact (IsNull.mul_right _ hw).sub (hv.mul_left _)
      | y => exact (hv.mul_left _).sub (IsNull.mul_right _ hw)
      | z => exact absurd rfl hab

namespace Ray

/-- What a hit says, in any arithmetic. Its position is a multiple of a triple product. -/
theorem strike?_eq_some {α : Type} [Scalar α] {r : Ray α} {t : Triangle α} {h : RayHit α}
    (hstrike : r.strike? t = some h) : 0 < h.scale ∧ h.triangle = t ∧
      ∃ f, h.scale = f * (t.c - t.a).dot ((r.origin - t.a).cross (t.b - t.a)) := by
  simp only [strike?, bind, Option.bind_eq_some_iff] at hstrike
  obtain ⟨c, hcross, n, -, hhit⟩ := hstrike
  cases hhit
  simp only [cross?] at hcross
  split_ifs at hcross with _ _ _ hscale
  cases hcross
  exact ⟨hscale, rfl, _, rfl⟩

/-- A ray that starts in the plane of a triangle across an axis does not strike the triangle. -/
theorem strike?_eq_none {r : Ray Float} {t : Triangle Float} {a : Axis}
    (ho : (r.origin.get a).isFinite = true)
    (h : ∀ p ∈ t.corners, (r.origin.get a == p.get a) = true) : r.strike? t = none := by
  have hsub : ∀ v w : Vec3 Float, (v - w).get a = v.get a - w.get a := by
    intro v w
    cases a <;> rfl
  have hcorner : ∀ p ∈ t.corners, Alike (r.origin.get a) (p.get a) :=
    fun p hp => Alike.of_beq (h p hp)
  have hnull : ∀ p, Alike (r.origin.get a) (p.get a) → IsNull ((p - t.a).get a) := by
    intro p hp
    rw [hsub]
    exact isNull_sub ho hp (hcorner t.a (by simp [Triangle.corners]))
  have he₁ := hnull t.b (hcorner t.b (by simp [Triangle.corners]))
  have he₂ := hnull t.c (hcorner t.c (by simp [Triangle.corners]))
  have hs := hnull r.origin (.refl _)
  have hscale : IsNull ((t.c - t.a).dot ((r.origin - t.a).cross (t.b - t.a))) := by
    refine isNull_dot fun b => ?_
    by_cases hb : b = a
    · exact .inl (hb ▸ he₂)
    · exact .inr (isNull_cross hb hs he₁)
  cases hstrike : r.strike? t with
  | none => rfl
  | some hit =>
      obtain ⟨hpos, -, f, hf⟩ := strike?_eq_some hstrike
      rw [hf] at hpos
      exact absurd hpos (hscale.mul_right f).not_pos

end Ray

end SolidSurface
