import SolidSurface.Extraction.MarchingCubes
import SolidSurface.Proofs.CubeCase.FaceWalk
import SolidSurface.Proofs.DualContour.Listing

/-! # Crossed edges and the cubes around them

An edge of a lattice is given by its axis and its lower end. It is crossed when its ends answer
differently, and a cube is mixed when some of its corners are inside and some are not. A cube is
mixed just when one of its edges is crossed, and away from the border four cubes share every crossed
edge.
-/

namespace SolidSurface

open CubeCase DualContour MarchingCubes

variable {n : Vec3 Nat} {inside : LatticePoint → Bool} {a : Axis} {low cube : LatticePoint}

/-- An edge of a lattice with `n` points per axis whose ends answer differently. -/
structure CrossedEdge (n : Vec3 Nat) (inside : LatticePoint → Bool) (a : Axis)
    (low : LatticePoint) : Prop where
  below : (stepForward low a).Below n
  differ : inside low ≠ inside (stepForward low a)

/-- A cube with corners of both kinds. -/
def MixedCube (inside : LatticePoint → Bool) (cube : LatticePoint) : Prop :=
  ∃ c < 8, ∃ d < 8, inside (cubeCorner cube c) = true ∧ inside (cubeCorner cube d) = false

/-! ## The edges of a cube -/

/-- The edges of a cube start at its least corner, but for a step along the axes across them. -/
theorem mem_cubeEdges_iff : (a, low) ∈ cubeEdges cube ↔
    low.get a = cube.get a ∧ ∀ b, b ≠ a → low.get b = cube.get b ∨ low.get b = cube.get b + 1 := by
  obtain ⟨x, y, z⟩ := low
  obtain ⟨i, j, k⟩ := cube
  have haxes : ∀ P : Axis → Prop, (∀ b, P b) ↔ P .x ∧ P .y ∧ P .z := fun P =>
    ⟨fun h => ⟨h .x, h .y, h .z⟩, fun h b => by cases b <;> simp [h]⟩
  rw [haxes]
  cases a <;> simp [cubeEdges, stepForward, Vec3.get] <;> grind

theorem mem_cubeRing_iff {q : LatticePoint} :
    cube ∈ cubeRing q a ↔ (a, across q a) ∈ cubeEdges cube := by
  obtain ⟨x, y, z⟩ := q
  obtain ⟨i, j, k⟩ := cube
  cases a <;> simp [cubeRing, cubeEdges, across, stepForward] <;> grind

theorem nodup_cubeRing (q : LatticePoint) (a : Axis) : (cubeRing q a).Nodup := by
  obtain ⟨x, y, z⟩ := q
  cases a <;> simp [cubeRing, across, stepForward]

/-- A crossed edge belongs to the lattice with every cube that it belongs to. -/
theorem stepForward_below_of_mem_cubeEdges (hcube : cube.Below (n.map (· - 1)))
    (h : (a, low) ∈ cubeEdges cube) : (stepForward low a).Below n := by
  rw [LatticePoint.below_iff_forall_get] at hcube ⊢
  obtain ⟨halong, hacross⟩ := mem_cubeEdges_iff.mp h
  intro b
  have hb := hcube b
  rw [Vec3.get_map] at hb
  by_cases hba : b = a
  · rw [hba] at hb ⊢
    rw [LatticePoint.get_stepForward_self]
    omega
  · rw [LatticePoint.get_stepForward_of_ne low hba]
    have := hacross b hba
    omega

/-- With all edges of a cube uncrossed its corners answer as the least one does. -/
theorem inside_cubeCorner_eq
    (h : ∀ e ∈ cubeEdges cube, inside e.2 = inside (stepForward e.2 e.1)) :
    ∀ c < 8, inside (cubeCorner cube c) = inside cube := by
  simp only [cubeEdges, List.forall_mem_cons, stepForward] at h
  obtain ⟨h₀₁, h₂₃, h₄₅, h₆₇, h₀₂, h₁₃, h₄₆, h₅₇, h₀₄, -⟩ := h
  intro c hc
  have : c = 0 ∨ c = 1 ∨ c = 2 ∨ c = 3 ∨ c = 4 ∨ c = 5 ∨ c = 6 ∨ c = 7 := by omega
  rcases this with rfl | rfl | rfl | rfl | rfl | rfl | rfl | rfl <;>
    simp_all [cubeCorner]

/-- The axis of edge `e` of a cube. -/
def edgeAxis (e : Nat) : Axis :=
  if e < 4 then .x else if e < 8 then .y else .z

theorem cubeEdges_eq_map (cube : LatticePoint) : cubeEdges cube =
    (List.range 12).map fun e => (edgeAxis e, cubeCorner cube (edgeEnds e).1) := rfl

/-- Each edge of a cube leads from its first corner to its second one. -/
theorem stepForward_cubeCorner (cube : LatticePoint) : ∀ e < 12,
    stepForward (cubeCorner cube (edgeEnds e).1) (edgeAxis e) = cubeCorner cube (edgeEnds e).2 := by
  have hall : ∀ e ∈ List.range 12, stepForward (cubeCorner cube (edgeEnds e).1) (edgeAxis e) =
      cubeCorner cube (edgeEnds e).2 := by
    simp [List.range_succ, edgeAxis, edgeEnds, edges, cubeCorner, stepForward]
  exact fun e he => hall e (List.mem_range.mpr he)

/-- The edges of a cube by their numbers. -/
theorem mem_cubeEdges_iff_exists : (a, low) ∈ cubeEdges cube ↔
    ∃ e < 12, edgeAxis e = a ∧ cubeCorner cube (edgeEnds e).1 = low := by
  simp only [cubeEdges_eq_map, List.mem_map, List.mem_range, Prod.mk.injEq]

theorem mixedCube_iff : MixedCube inside cube ↔
    ∃ e ∈ cubeEdges cube, inside e.2 ≠ inside (stepForward e.2 e.1) := by
  constructor
  · rintro ⟨c, hc, d, hd, hin, hout⟩
    refine Classical.byContradiction fun hnone => ?_
    have hsame := inside_cubeCorner_eq fun e he =>
      Classical.not_not.mp fun hne => hnone ⟨e, he, hne⟩
    rw [hsame d hd, ← hsame c hc, hin] at hout
    cases hout
  · rintro ⟨⟨a, low⟩, hmem, hne⟩
    obtain ⟨e, he, rfl, rfl⟩ := mem_cubeEdges_iff_exists.mp hmem
    obtain ⟨hfirst, hsecond⟩ := edgeEnds_lt e he
    rw [stepForward_cubeCorner cube e he] at hne
    cases hin : inside (cubeCorner cube (edgeEnds e).1) with
    | true => exact ⟨_, hfirst, _, hsecond, hin, by simpa [hin] using hne⟩
    | false => exact ⟨_, hsecond, _, hfirst, by simpa [hin] using hne, hin⟩

/-! ## Away from the border -/

section Clear

variable (hborder : ∀ p : LatticePoint, p.Below n → p.isBorder n = true → inside p = false)

include hborder

/-- A crossed edge keeps off the border across its axis. -/
theorem CrossedEdge.get_across (h : CrossedEdge n inside a low) {b : Axis} (hb : b ≠ a) :
    0 < low.get b ∧ low.get b + 1 < n.get b := by
  cases hlow : inside low with
  | true => exact LatticePoint.get_of_inside hborder h.below.of_stepForward hlow b
  | false =>
      have hhigh : inside (stepForward low a) = true := by simpa [hlow] using h.differ.symm
      rw [← LatticePoint.get_stepForward_of_ne low hb]
      exact LatticePoint.get_of_inside hborder h.below hhigh b

/-- All cubes that a crossed edge belongs to are cubes of the lattice. -/
theorem CrossedEdge.cube_below (h : CrossedEdge n inside a low) (hmem : (a, low) ∈ cubeEdges cube) :
    cube.Below (n.map (· - 1)) := by
  obtain ⟨halong, hacross⟩ := mem_cubeEdges_iff.mp hmem
  rw [LatticePoint.below_iff_forall_get]
  intro b
  rw [Vec3.get_map]
  by_cases hba : b = a
  · have hb := LatticePoint.below_iff_forall_get.mp h.below a
    rw [LatticePoint.get_stepForward_self] at hb
    rw [hba]
    omega
  · have := h.get_across hborder hba
    have := hacross b hba
    omega

theorem CrossedEdge.exists_across (h : CrossedEdge n inside a low) : ∃ q, low = across q a :=
  exists_eq_across fun _ hb => (h.get_across hborder hb).1

/-- Around a crossed edge there are four cubes, and it belongs to no other. -/
theorem CrossedEdge.exists_cubesAround_eq (h : CrossedEdge n inside a low) : ∃ c₁ c₂ c₃ c₄,
    cubesAround low a = [some c₁, some c₂, some c₃, some c₄] ∧ [c₁, c₂, c₃, c₄].Nodup ∧
      ∀ cube, cube ∈ [c₁, c₂, c₃, c₄] ↔ (a, low) ∈ cubeEdges cube := by
  obtain ⟨q, rfl⟩ := h.exists_across hborder
  obtain ⟨c₁, c₂, c₃, c₄, hring⟩ := LatticeField.exists_cubeRing_eq q a
  refine ⟨c₁, c₂, c₃, c₄, ?_, hring ▸ nodup_cubeRing q a, fun cube => ?_⟩
  · rw [cubesAround_across, hring]
    rfl
  · rw [← hring, mem_cubeRing_iff]

end Clear

end SolidSurface
