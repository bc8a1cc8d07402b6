import SolidSurface.Proofs.Binary64.Clipping
import SolidSurface.Proofs.Binary64.Coinciding
import SolidSurface.Proofs.Solid.Bounds

/-! # Extents of boxes of floats

What a box spans is told by the units of its corners, or by nothing when it is empty. Extents form a
lattice in which the union of boxes is the join, so neither the order nor the grouping of unions
shows in them. The surface of a box depends on its extent only.
-/

namespace SolidSurface

open Binary64

namespace Binary64

open Float.Model
open Float.Model.UnpackedFloat

variable {x y z x' y' z' : Float}

theorem Alike.mulAdd (hx : Alike x x') (hy : Alike y y') (hz : Alike z z') :
    Alike (Binary64.mulAdd x y z) (Binary64.mulAdd x' y' z') := by
  have hproduct := hx.mul hy
  have hsum := hproduct.add hz
  rw [Binary64.mulAdd, Binary64.mulAdd]
  rcases hx.agrees with hux | ⟨s, t, hux, hux'⟩
  · rcases hy.agrees with huy | ⟨s, t, huy, huy'⟩
    · rcases hz.agrees with huz | ⟨s, t, huz, huz'⟩
      · rw [hux, huy, huz]
        split
        · exact .refl _
        · exact hproduct
        · exact hz
        · exact hsum
      · rw [hux, huy, huz, huz']
        cases x'.toModel.unpack with
        | finite =>
            cases y'.toModel.unpack with
            | finite => exact hproduct
            | _ => exact hsum
        | _ => exact hsum
    · rw [hux, huy, huy']
      cases x'.toModel.unpack with
      | _ => exact hsum
  · rw [hux, hux']
    exact hsum

/-- The units of a number. -/
def countUnits (x : Float) : ℤ :=
  (units? x).getD 0

theorem units?_eq_some (h : (x == x) = true) : units? x = some (countUnits x) := by
  obtain ⟨m, hm, -⟩ := beq_iff.mp h
  rw [countUnits, hm, Option.getD_some]

theorem alike_of_countUnits_eq (hx : (x == x) = true) (hy : (y == y) = true)
    (h : countUnits x = countUnits y) : Alike x y := by
  rw [Alike, units?_eq_some hx, units?_eq_some hy, h]

end Binary64

namespace Box

variable {b c : Box Float} {bs cs : List (Box Float)}

/-! ## Joins -/

/-- Both corners of a box in units. The lower coordinates are ordered the other way round, so that
the larger of two boxes has the larger corners. -/
abbrev Corners : Type :=
  (Axis → ℤ)ᵒᵈ × (Axis → ℤ)

def cornerUnits (b : Box Float) : Corners :=
  (OrderDual.toDual fun a => countUnits (b.lower.get a), fun a => countUnits (b.upper.get a))

/-- What a box spans. -/
def extent (b : Box Float) : WithBot Corners :=
  if b.isEmpty then ⊥ else b.cornerUnits

theorem isEmpty_iff_countUnits (hb : b.IsNumeric) :
    b.isEmpty = true ↔ ∃ a, countUnits (b.upper.get a) < countUnits (b.lower.get a) :=
  isEmpty_iff.trans <| exists_congr fun a =>
    lt_iff_of_units (units?_eq_some (hb.upper a)) (units?_eq_some (hb.lower a))

theorem countUnits_lesser {x y : Float} (hx : (x == x) = true) (hy : (y == y) = true) :
    countUnits (Vec3.lesser x y) = min (countUnits x) (countUnits y) := by
  rw [countUnits, units?_lesser (units?_eq_some hx) (units?_eq_some hy), Option.getD_some]

theorem countUnits_greater {x y : Float} (hx : (x == x) = true) (hy : (y == y) = true) :
    countUnits (Vec3.greater x y) = max (countUnits x) (countUnits y) := by
  rw [countUnits, units?_greater (units?_eq_some hx) (units?_eq_some hy), Option.getD_some]

/-- Where two boxes span something, their union spans both. -/
theorem extent_union (hb : b.IsNumeric) (hc : c.IsNumeric) :
    (b.union c).extent = b.extent ⊔ c.extent := by
  by_cases hbe : b.isEmpty = true
  · rw [Box.union, if_pos hbe, show b.extent = ⊥ from if_pos hbe, bot_sup_eq]
  by_cases hce : c.isEmpty = true
  · rw [Box.union, if_neg hbe, if_pos hce, show c.extent = ⊥ from if_pos hce, sup_bot_eq]
  have hunion : b.union c = ⟨b.lower.inf c.lower, b.upper.sup c.upper⟩ := by
    rw [Box.union, if_neg hbe, if_neg hce]
  have hlower : ∀ a, countUnits ((b.union c).lower.get a) =
      min (countUnits (b.lower.get a)) (countUnits (c.lower.get a)) := by
    intro a
    rw [hunion, Vec3.inf, Vec3.get_zipWith, countUnits_lesser (hb.lower a) (hc.lower a)]
  have hupper : ∀ a, countUnits ((b.union c).upper.get a) =
      max (countUnits (b.upper.get a)) (countUnits (c.upper.get a)) := by
    intro a
    rw [hunion, Vec3.sup, Vec3.get_zipWith, countUnits_greater (hb.upper a) (hc.upper a)]
  have hne : ¬(b.union c).isEmpty = true := by
    rw [isEmpty_iff_countUnits (hb.union hc)]
    rintro ⟨a, ha⟩
    rw [hlower, hupper] at ha
    refine hbe ((isEmpty_iff_countUnits hb).mpr ⟨a, ?_⟩)
    exact (le_max_left _ _).trans_lt (ha.trans_le (min_le_left _ _))
  rw [extent, extent, extent, if_neg hne, if_neg hbe, if_neg hce, ← WithBot.coe_sup]
  refine congrArg _ (Prod.ext ?_ ?_)
  · exact congrArg OrderDual.toDual (funext hlower)
  · exact funext hupper

theorem extent_foldl_union {acc : Box Float} (hacc : acc.IsNumeric)
    (hbs : ∀ b ∈ bs, b.IsNumeric) :
    (bs.foldl union acc).extent = (bs.map extent).foldl (· ⊔ ·) acc.extent := by
  induction bs generalizing acc with
  | nil => rfl
  | cons b bs ih =>
      have hb := hbs b List.mem_cons_self
      rw [List.foldl_cons, ih (hacc.union hb) fun c hc => hbs c (List.mem_cons_of_mem _ hc),
        List.map_cons, List.foldl_cons, extent_union hacc hb]

theorem isNumeric_unionAll (hbs : ∀ b ∈ bs, b.IsNumeric) : (unionAll bs).IsNumeric :=
  (foldl_union_spec isNumeric_empty hbs).1

/-- The order of the boxes does not show in the extent of their union. -/
theorem extent_unionAll_perm (hbs : ∀ b ∈ bs, b.IsNumeric) (hperm : bs.Perm cs) :
    (unionAll bs).extent = (unionAll cs).extent := by
  have hcs : ∀ c ∈ cs, c.IsNumeric := fun c hc => hbs c (hperm.mem_iff.mpr hc)
  rw [unionAll, unionAll, extent_foldl_union isNumeric_empty hbs,
    extent_foldl_union isNumeric_empty hcs]
  exact (hperm.map extent).foldl_op_eq

/-! ## Surface -/

theorem surfaceArea_alike (hb : b.IsNumeric) (hc : c.IsNumeric) (h : b.extent = c.extent) :
    Alike b.surfaceArea c.surfaceArea := by
  by_cases hbe : b.isEmpty = true
  · have hce : c.isEmpty = true := by
      by_contra hce
      rw [extent, extent, if_pos hbe, if_neg hce] at h
      exact WithBot.bot_ne_coe h
    rw [surfaceArea, surfaceArea, if_pos hbe, if_pos hce]
    exact .refl _
  have hce : ¬c.isEmpty = true := by
    intro hce
    rw [extent, extent, if_neg hbe, if_pos hce] at h
    exact WithBot.coe_ne_bot h
  rw [extent, extent, if_neg hbe, if_neg hce, WithBot.coe_inj, cornerUnits, cornerUnits, Prod.mk.injEq]
    at h
  have hsize : ∀ a, Alike (b.size.get a) (c.size.get a) := by
    intro a
    rw [size, size, Vec3.get_sub, Vec3.get_sub]
    exact (alike_of_countUnits_eq (hb.upper a) (hc.upper a) (congrFun h.2 a)).sub
      (alike_of_countUnits_eq (hb.lower a) (hc.lower a) (congrFun h.1 a))
  rw [surfaceArea, surfaceArea, if_neg hbe, if_neg hce]
  exact (Alike.refl _).mul ((hsize .z).mulAdd (hsize .x)
    ((hsize .x).mulAdd (hsize .y) ((hsize .y).mul (hsize .z))))

end Box

end SolidSurface
