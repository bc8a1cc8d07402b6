import Mathlib.Algebra.BigOperators.Group.List.Lemmas
import Mathlib.Algebra.Ring.CharZero
import Mathlib.Data.List.Perm.Basic
import SolidSurface.Proofs.BorderContract
import SolidSurface.Proofs.Mesh.Vertices
import SolidSurface.Proofs.Mesh.Volume

/-! # Moving a surface

When the origin moves, the cone over a triangle changes by one term for each side of the triangle,
and the term of a side is the opposite of that of the reversed side. Where every side is met as
often as its reverse the terms cancel, so the volume stays what it was.
-/

namespace SolidSurface

/-! ## Sides against their reverses -/

section Pairs

variable {β : Type}

/-- Counts that do not change when a pair is turned around. -/
theorem perm_map_swap_of_count_eq [BEq β] [LawfulBEq β] {l : List (β × β)}
    (h : ∀ a b, l.count (a, b) = l.count (b, a)) : l.Perm (l.map Prod.swap) := by
  refine List.perm_iff_count.mpr fun s => ?_
  calc l.count s = l.count s.swap := h s.1 s.2
    _ = (l.map Prod.swap).count s.swap.swap :=
      (List.count_map_of_injective l _ Prod.swap_injective s.swap).symm
    _ = (l.map Prod.swap).count s := by rw [Prod.swap_swap]

/-- Terms that change their sign when a pair is turned around cancel. -/
theorem sum_eq_zero_of_perm_map_swap {α : Type} [Field α] [CharZero α] {w : β → β → α}
    (hw : ∀ u v, w v u = -w u v) {l : List (β × β)} (h : l.Perm (l.map Prod.swap)) :
    (l.map fun s => w s.1 s.2).sum = 0 := by
  have hturned : (l.map fun s => w s.1 s.2).sum = -(l.map fun s => w s.1 s.2).sum :=
    calc (l.map fun s => w s.1 s.2).sum
        = ((l.map Prod.swap).map fun s => w s.1 s.2).sum := (h.map _).sum_eq
      _ = (l.map fun s => -w s.1 s.2).sum := by
        rw [List.map_map]
        exact congrArg List.sum (List.map_congr_left fun s _ => hw s.1 s.2)
      _ = -(l.map fun s => w s.1 s.2).sum := by rw [List.sum_neg, List.map_map]; rfl
  exact CharZero.eq_neg_self_iff.mp hturned

end Pairs

/-! ## Cones -/

namespace Triangle

variable {R : Type} [CommRing R]

theorem triple_alternating (v p q : Vec3 R) : v.triple q p = -v.triple p q := by
  simp only [Vec3.triple, Vec3.wedge]
  ring

theorem coneVolume_map_add (v : Vec3 R) (t : Triangle R) :
    (t.map (Vec3.placed v 1)).coneVolume =
      t.coneVolume + (t.sides.map fun s => v.triple s.1 s.2).sum := by
  rw [coneVolume_placed]
  simp only [sides, List.map_cons, List.map_nil, List.sum_cons, List.sum_nil, Vec3.triple,
    areaVector]
  ring

end Triangle

/-! ## Meshes -/

variable {α κ : Type} [BEq κ] [Hashable κ]

/-- Keys that tell all points apart see the same balance as the points do. -/
theorem Mesh.allSides_perm_swap [Keyed α κ] [LawfulBEq κ]
    (hkey : Function.Injective (Keyed.key : α → κ)) {m : Mesh α κ}
    (h : ∀ a b, m.sideCount a b = m.sideCount b a) :
    (Triangle.allSides m.triangles).Perm ((Triangle.allSides m.triangles).map Prod.swap) := by
  have hkeys : m.directedSides.Perm (m.directedSides.map Prod.swap) := perm_map_swap_of_count_eq h
  have hinj := PointKey.ofPoint_injective hkey
  refine (List.map_perm_map_iff (hinj.prodMap hinj)).mp ?_
  rw [directedSides, List.map_map] at hkeys
  rw [List.map_map]
  exact hkeys

variable [FieldScalar α]

theorem Vec3.add_eq_placed (p v : Vec3 α) : p + v = Vec3.placed v 1 p := by
  refine ext_get fun a => ?_
  rw [get_add, placed, get_zipWith, one_mul, add_comm]

namespace Mesh

theorem volume_mapPoints_add (m : Mesh α κ) (v : Vec3 α)
    (h : (Triangle.allSides m.triangles).Perm ((Triangle.allSides m.triangles).map Prod.swap)) :
    (m.mapPoints (· + v)).volume = m.volume := by
  -- The changes of all cones, side by side, cancel.
  have hsides : (m.triangles.map fun t => (t.sides.map fun s => v.triple s.1 s.2).sum).sum = 0 := by
    rw [← sum_eq_zero_of_perm_map_swap (Triangle.triple_alternating v) h, Triangle.allSides,
      List.map_flatMap, List.flatMap_def, List.sum_flatten, List.map_map]
    rfl
  have hmove : (fun p : Point α => p + v) = Vec3.placed v 1 := funext fun p => p.add_eq_placed v
  have hcones : (m.triangles.map fun t => (t.map (· + v)).coneVolume).sum =
      (m.triangles.map Triangle.coneVolume).sum := by
    simp only [hmove, Triangle.coneVolume_map_add, List.sum_map_add, hsides, add_zero]
  have hsix (ts : List (Triangle α)) :
      (ts.map Triangle.signedVolume).sum = (ts.map Triangle.coneVolume).sum * 6⁻¹ := by
    rw [← List.sum_map_mul_right]
    refine congrArg List.sum (List.map_congr_left fun t _ => ?_)
    rw [t.signedVolume_eq, div_eq_mul_inv]
  rw [volume_eq_sum, volume_eq_sum, triangles_mapPoints, hsix, hsix, List.map_map]
  exact congrArg (· * 6⁻¹) hcones

end Mesh

/-! ## Extracted surfaces -/

theorem exists_of_bind_eq_ok {ε β γ : Type} {x : Except ε β} {f : β → Except ε γ} {r : γ}
    (h : x >>= f = .ok r) : ∃ b, x = .ok b ∧ f b = .ok r := by
  cases x with
  | ok b => exact ⟨b, rfl, h⟩
  | error e => cases h

variable [Keyed α κ]

theorem balanced_marchingCubes [LawfulBEq κ] {s : Solid α} {c : MarchingCubesSettings α}
    {m : Mesh α κ} (h : marchingCubes s c = .ok m) : Balanced m.directedSides := by
  obtain ⟨_, -, h⟩ := exists_of_bind_eq_ok h
  obtain ⟨g, -, h⟩ := exists_of_bind_eq_ok h
  obtain ⟨plain, hplain, h⟩ := exists_of_bind_eq_ok h
  have hbalanced := balanced_midpointSurface hplain
  cases h
  by_cases hsteps : 0 < c.refinementSteps
  · obtain ⟨f, hf⟩ := exists_directedSides_snapToSurface plain s g c.refinementSteps
    rw [if_pos hsteps, hf]
    exact hbalanced.map f
  · rw [if_neg hsteps]
    exact hbalanced

theorem balanced_dualContour {s : Solid α} {c : DualContourSettings α} {m : Mesh α κ}
    (h : dualContour s c = .ok m) : Balanced m.directedSides := by
  obtain ⟨_, -, h⟩ := exists_of_bind_eq_ok h
  obtain ⟨e, -, h⟩ := exists_of_bind_eq_ok h
  exact balanced_dualContourUsing h

/-- Moving a mesh does not change its volume if as many sides run from one vertex to another as
back, which is so for everything that is extracted from a solid. -/
theorem Mesh.volume_translated [LawfulBEq κ] (hkey : Function.Injective (Keyed.key : α → κ))
    (v : Vec3 α) :
    (∀ m : Mesh α κ, (∀ a b, m.sideCount a b = m.sideCount b a) →
      (m.mapPoints (· + v)).volume = m.volume) ∧
    (∀ (s : Solid α) (c : MarchingCubesSettings α) (m : Mesh α κ), marchingCubes s c = .ok m →
      (m.mapPoints (· + v)).volume = m.volume) ∧
    (∀ (e : SurfaceEstimator α) (c : DualContourSettings α) (m : Mesh α κ),
      dualContourUsing e c = .ok m ∨ dualContour e.solid c = .ok m →
      (m.mapPoints (· + v)).volume = m.volume) := by
  have hmesh (m : Mesh α κ) (h : ∀ a b, m.sideCount a b = m.sideCount b a) :
      (m.mapPoints (· + v)).volume = m.volume :=
    m.volume_mapPoints_add v (m.allSides_perm_swap hkey h)
  refine ⟨hmesh, fun s c m hm => ?_, fun e c m hm => ?_⟩
  · exact hmesh m (sideCount_eq_of_balanced (balanced_marchingCubes hm))
  · refine hmesh m (sideCount_eq_of_balanced ?_)
    cases hm with
    | inl h => exact balanced_dualContourUsing h
    | inr h => exact balanced_dualContour h

/-- A cube whose first triangle is there once more at the end and was then removed. -/
def gappedCube : Mesh Fraction Fraction :=
  ((Mesh.ofList (Mesh.boxTriangles (Box.spanning ⟨0, 0, 0⟩ ⟨1, 1, 1⟩).corner ++
    [⟨⟨0, 0, 0⟩, ⟨0, 1, 0⟩, ⟨1, 1, 0⟩⟩]) (by decide)).remove ⟨0⟩).2

theorem Mesh.volume_translated_gappedCube :
    (gappedCube.get? ⟨0⟩ = none ∧ gappedCube.volume = 1 ∧
      (∀ a b, gappedCube.sideCount a b = gappedCube.sideCount b a) ∧
      (gappedCube.mapPoints (· + ⟨3, -2, 5⟩)).volume = 1) ∧
    (∃ m : Mesh Fraction Fraction, marchingCubes cornerPair ⟨1, 3, 0⟩ = .ok m ∧
      (m.mapPoints (· + ⟨3, -2, 5⟩)).volume = m.volume) ∧
    ∃ m : Mesh Fraction Fraction,
      dualContour cornerPair ⟨1, 0, 0, true, 0, .standard⟩ = .ok m ∧
      (m.mapPoints (· + ⟨3, -2, 5⟩)).volume = m.volume := by
  obtain ⟨hmesh, hcubes, hdual⟩ := volume_translated (κ := Fraction) (fun _ _ h => h) ⟨3, -2, 5⟩
  have hsides (a b : PointKey Fraction) : gappedCube.sideCount a b = gappedCube.sideCount b a :=
    sideCount_eq_of_balanced (Balanced.of_perm_swap (by decide +kernel)) a b
  have hone : gappedCube.volume = 1 := by decide +kernel
  have hclear (p : LatticePoint) : ¬IsLeak cornerPair cornerPairGrid p := by
    rintro ⟨hp, hborder, hin⟩
    rw [contains_cornerPair_of_isBorder hp hborder] at hin
    cases hin
  obtain ⟨m, hm, -⟩ := (marchingCubes_meetsBorderContract (κ := Fraction) (c := ⟨1, 3, 0⟩)
    ofBounds_cornerPair (by decide)).exists_mesh hclear (by decide +kernel)
  obtain ⟨e, he, hdefault⟩ := exists_dualContour_eq (κ := Fraction)
    (c := ⟨1, 0, 0, true, 0, .standard⟩) (by decide +kernel) cornerPair
  obtain ⟨n, hn, -⟩ := (dualContourUsing_meetsBorderContract (κ := Fraction) (e := e)
    (c := ⟨1, 0, 0, true, 0, .standard⟩) (by decide +kernel) (he ▸ ofBounds_cornerPair)
    (by decide)).exists_mesh (he ▸ hclear) (by rw [he]; decide +kernel)
  replace hn := hdefault.trans hn
  exact ⟨⟨by decide +kernel, hone, hsides, (hmesh gappedCube hsides).trans hone⟩,
    ⟨m, hm, hcubes _ _ m hm⟩, ⟨n, hn, hdual ⟨cornerPair, 0, 0, []⟩ _ n (.inr hn)⟩⟩

end SolidSurface
