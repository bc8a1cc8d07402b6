import Mathlib.Algebra.BigOperators.Ring.Finset
import Mathlib.Tactic.Ring
import SolidSurface.Proofs.Scalar.Field
import SolidSurface.Proofs.Mesh.Winding

/-! # The volume that a surface encloses

The cones from the origin over the triangles of a surface add up to the volume inside it. Moving
the origin changes each cone by the sides of its triangle alone, which cancel when the surface is
closed, so the volume of a closed surface on a lattice can be computed on the lattice.
-/

namespace SolidSurface

/-! ## Cones -/

section Ring

variable {R : Type} [CommRing R]

/-- The cross product. -/
def Vec3.wedge (u v : Vec3 R) : Vec3 R :=
  ⟨u.y * v.z - u.z * v.y, u.z * v.x - u.x * v.z, u.x * v.y - u.y * v.x⟩

/-- The determinant of three vectors. -/
def Vec3.triple (u v w : Vec3 R) : R :=
  u.x * (v.wedge w).x + u.y * (v.wedge w).y + u.z * (v.wedge w).z

/-- What lies at `u` when the origin is moved to `o` and the unit of length is `h`. -/
def Vec3.placed (o : Vec3 R) (h : R) (u : Vec3 R) : Vec3 R :=
  zipWith (fun x y => x + h * y) o u

namespace Triangle

/-- Six times the volume of the cone from the origin. -/
def coneVolume (t : Triangle R) : R :=
  t.a.triple t.b t.c

/-- Twice the area, along the normal of the front, from the sides of the triangle. -/
def areaVector (t : Triangle R) : Vec3 R :=
  ⟨(t.a.wedge t.b).x + (t.b.wedge t.c).x + (t.c.wedge t.a).x,
   (t.a.wedge t.b).y + (t.b.wedge t.c).y + (t.c.wedge t.a).y,
   (t.a.wedge t.b).z + (t.b.wedge t.c).z + (t.c.wedge t.a).z⟩

theorem coneVolume_placed (o : Vec3 R) (h : R) (t : Triangle R) :
    (t.map (Vec3.placed o h)).coneVolume = h ^ 3 * t.coneVolume +
      h ^ 2 * (o.x * t.areaVector.x + o.y * t.areaVector.y + o.z * t.areaVector.z) := by
  simp only [coneVolume, areaVector, Vec3.triple, Vec3.wedge, Vec3.placed, Vec3.zipWith, map]
  ring

/-! ## Triangles on a lattice -/

/-- A triangle between lattice points, over any ring. -/
def overRing (R : Type) [CommRing R] (t : Triangle Nat) : Triangle R :=
  t.map (Vec3.map Nat.cast)

theorem coneVolume_overRing (t : Triangle Nat) :
    (t.overRing R).coneVolume = ((t.overRing ℤ).coneVolume : R) := by
  simp only [coneVolume, Vec3.triple, Vec3.wedge, overRing, map, Vec3.map]
  push_cast
  rfl

theorem get_areaVector_overRing (t : Triangle Nat) (a : Axis) :
    (t.overRing R).areaVector.get a = ((t.overRing ℤ).areaVector.get a : R) := by
  cases a <;>
    simp only [areaVector, Vec3.wedge, overRing, map, Vec3.map, Vec3.get] <;> push_cast <;> rfl

/-- The weight of a directed side in the area along an axis. -/
def sideArea (a : Axis) (u v : Point Nat) : ℤ :=
  ((u.map Nat.cast).wedge (v.map Nat.cast) : Vec3 ℤ).get a

theorem sideArea_alternating (a : Axis) : Alternating (sideArea a) := by
  intro u v
  cases a <;> simp only [sideArea, Vec3.wedge, Vec3.get, Vec3.map] <;> ring

theorem pairSum_allSides (a : Axis) (ts : List (Triangle Nat)) :
    pairSum (sideArea a) (allSides ts) =
      (ts.map fun t => (t.overRing ℤ).areaVector.get a).sum := by
  rw [allSides, pairSum_flatMap]
  congr 1
  refine List.map_congr_left fun t _ => ?_
  cases a <;> simp [sides, sideArea, areaVector, overRing, map, Vec3.get, add_assoc]

/-- The area of a closed surface points nowhere. -/
theorem sum_areaVector_eq_zero {ts : List (Triangle Nat)} (h : Balanced (allSides ts)) (a : Axis) :
    (ts.map fun t => (t.overRing R).areaVector.get a).sum = 0 := by
  have hzero : (ts.map fun t => (t.overRing ℤ).areaVector.get a).sum = 0 :=
    (pairSum_allSides a ts).symm.trans (h _ (sideArea_alternating a))
  calc (ts.map fun t => (t.overRing R).areaVector.get a).sum
      = (ts.map fun t => ((t.overRing ℤ).areaVector.get a : R)).sum := by
        simp only [get_areaVector_overRing (R := R)]
    _ = (((ts.map fun t => (t.overRing ℤ).areaVector.get a).sum : ℤ) : R) := by
        rw [Int.cast_list_sum, List.map_map]
        rfl
    _ = 0 := by rw [hzero, Int.cast_zero]

/-- The cones over a closed surface on a lattice, wherever the lattice is placed. -/
theorem sum_coneVolume_placed {ts : List (Triangle Nat)} (hts : Balanced (allSides ts))
    (o : Vec3 R) (h : R) :
    (ts.map fun t => ((t.overRing R).map (Vec3.placed o h)).coneVolume).sum =
      h ^ 3 * ((ts.map fun t => (t.overRing ℤ).coneVolume).sum : ℤ) := by
  have hx := sum_areaVector_eq_zero (R := R) hts .x
  have hy := sum_areaVector_eq_zero (R := R) hts .y
  have hz := sum_areaVector_eq_zero (R := R) hts .z
  simp only [Vec3.get] at hx hy hz
  simp only [coneVolume_placed, List.sum_map_add, List.sum_map_mul_left, hx, hy, hz, mul_zero,
    add_zero, coneVolume_overRing (R := R), Int.cast_list_sum, List.map_map]
  rfl

end Triangle

end Ring

/-! ## Meshes -/

variable {α κ : Type} [FieldScalar α]

theorem Triangle.signedVolume_eq (t : Triangle α) : t.signedVolume = t.coneVolume / 6 := by
  rw [signedVolume, FieldScalar.ofNat_eq, Nat.cast_ofNat]
  rfl

theorem Mesh.volume_eq_sum [BEq κ] [Hashable κ] (m : Mesh α κ) :
    m.volume = (m.triangles.map Triangle.signedVolume).sum := by
  rw [volume, Scalar.measure_foldl (fun sum => sum) fun _ _ => rfl, neg_zero, zero_add]

/-- The volume of a closed surface on a lattice is computed on the lattice. -/
theorem Mesh.volume_placed [BEq κ] [Hashable κ] {ts : List (Triangle Nat)}
    (hts : Balanced (Triangle.allSides ts)) {m : Mesh α κ} {o : Point α} {h : α}
    (hm : m.triangles = ts.map fun t => (t.overRing α).map (Vec3.placed o h)) :
    m.volume = h ^ 3 / 6 * ((ts.map fun t => (t.overRing ℤ).coneVolume).sum : ℤ) := by
  rw [volume_eq_sum, hm, List.map_map]
  simp only [Function.comp_def, Triangle.signedVolume_eq, div_eq_mul_inv, List.sum_map_mul_right,
    Triangle.sum_coneVolume_placed hts]
  ring

end SolidSurface
