import Mathlib.Tactic.Linarith
import SolidSurface.Proofs.Scalar.Fraction
import SolidSurface.Proofs.MarchingCubes.Snapping

/-! # Refined vertices

A vertex of marching cubes tells the crossed edge that it is the middle of, and refinement moves it
along that edge by halving. What it ends at lies strictly between the ends of the edge, so vertices
of different edges stay apart and the triangles stay connected as they were.
-/

namespace SolidSurface

open DualContour MarchingCubes

variable {α κ : Type}

/-! ## Edges and their middles -/

section Edge

variable [CountingScalar α] {s : Solid α} {g : Grid α} {a b : Axis} {low low' : LatticePoint}

/-- A whole number and a proper fraction are told from their sum. -/
theorem natCast_add_inj {i j : Nat} {x y : α} (hx₀ : 0 ≤ x) (hx₁ : x < 1) (hy₀ : 0 ≤ y)
    (hy₁ : y < 1) (h : (i : α) + x = j + y) : i = j ∧ x = y := by
  have hij : (i : α) < j + 1 := by linarith
  have hji : (j : α) < i + 1 := by linarith
  have heq : i = j := le_antisymm (natCast_le_of_lt hij) (natCast_le_of_lt hji)
  rw [heq, add_right_inj] at h
  exact ⟨heq, h⟩

/-- No point lies inside two edges. -/
theorem OnEdge.unique (hcell : 0 < g.cellSize) {r : Point α} (h : OnEdge g a low r)
    (h' : OnEdge g b low' r) : a = b ∧ low = low' := by
  obtain ⟨t, ht₀, ht₁, hr⟩ := h
  obtain ⟨t', ht₀', ht₁', hr'⟩ := h'
  have hparts : ∀ d, low.get d = low'.get d ∧
      (if d = a then t else 0) = if d = b then t' else 0 := by
    intro d
    have hd := (hr d).symm.trans (hr' d)
    rw [add_right_inj] at hd
    refine natCast_add_inj ?_ ?_ ?_ ?_ (mul_right_cancel₀ hcell.ne' hd) <;> split_ifs <;>
      linarith
  refine ⟨?_, Vec3.ext_get fun d => (hparts d).1⟩
  by_contra hab
  have ha := (hparts a).2
  rw [if_pos rfl, if_neg hab] at ha
  exact ht₀.ne' ha

theorem halfCoordinates?_middle (hcell : 0 < g.cellSize)
    (h : (stepForward low a).Below g.dimensions) :
    g.halfCoordinates? (g.halfCellPosition (middle low (stepForward low a))) =
      some (middle low (stepForward low a)) := by
  refine Grid.halfCoordinates?_halfCellPosition hcell fun b => ?_
  have hb := LatticePoint.below_iff_forall_get.mp h b
  rw [get_middle_stepForward]
  split_ifs with hba
  · rw [hba, LatticePoint.get_stepForward_self] at hb
    rw [hba]
    omega
  · rw [LatticePoint.get_stepForward_of_ne low hba] at hb
    omega

/-- The middle of a crossed edge is moved along that edge, from inside to outside. -/
theorem exists_snapsAlong (hcell : 0 < g.cellSize)
    (h : CrossedEdge g.dimensions (fun p => s.contains (g.position p)) a low) :
    ∃ p q, EdgeEnds a low p q ∧
      SnapsAlong s g (g.halfCellPosition (middle low (stepForward low a))) p q := by
  have hnearest := halfCoordinates?_middle hcell h.below
  have hdiffer := h.differ
  rcases Bool.eq_false_or_eq_true (s.contains (g.position low)) with hlow | hlow
  · refine ⟨low, stepForward low a, .inl ⟨rfl, rfl⟩, ⟨⟨a, .inl rfl⟩, hnearest, ?_, ?_⟩⟩
    · rw [Grid.evenPosition_eq, hlow]
    · simpa [Grid.evenPosition_eq, hlow] using hdiffer.symm
  · refine ⟨stepForward low a, low, .inr ⟨rfl, rfl⟩, ⟨⟨a, .inr rfl⟩, ?_, ?_, ?_⟩⟩
    · rw [hnearest, middle_comm]
    · simpa [Grid.evenPosition_eq, hlow] using hdiffer.symm
    · rw [Grid.evenPosition_eq, hlow]

end Edge

/-! ## The refined surface -/

section Refined

variable [CountingScalar α] {s : Solid α} {g : Grid α} {k : Nat} {a : Axis} {low : LatticePoint}
  {v r : Point α}

/-- A vertex `v` in the middle of the edge between neighbouring samples, `p` inside and `q` outside,
that is moved to `r` by `k` halvings of that edge. -/
structure MovedAlong (s : Solid α) (g : Grid α) (k : Nat) (v r : Point α) (p q : LatticePoint) :
    Prop where
  neighbours : ∃ a, q = stepForward p a ∨ p = stepForward q a
  below : p.Below g.dimensions ∧ q.Below g.dimensions
  inside : s.contains (g.position p) = true
  outside : s.contains (g.position q) = false
  middle_eq : v = (g.position p).midpoint (g.position q)
  bisect_eq : r = bisect s (g.position p) (g.position q) k
  halved : HalvedTo s (g.position p) (g.position q) k r

/-- The vertex of a crossed edge is moved along it and stays strictly inside. -/
theorem exists_movedAlong (hcell : 0 < g.cellSize)
    (h : CrossedEdge g.dimensions (fun p => s.contains (g.position p)) a low) (k : Nat) :
    let v := g.halfCellPosition (middle low (stepForward low a))
    OnEdge g a low (snapTarget s g k v) ∧ ∃ p q, MovedAlong s g k v (snapTarget s g k v) p q := by
  obtain ⟨p, q, hends, hsnaps⟩ := exists_snapsAlong hcell h
  have hin := hsnaps.inside
  have hout := hsnaps.outside
  have htarget := hsnaps.snapTarget_eq k
  rw [Grid.evenPosition_eq] at hin hout
  rw [Grid.evenPosition_eq, Grid.evenPosition_eq] at htarget
  refine ⟨hsnaps.onEdge_snapTarget hends k, p, q, hsnaps.neighbours, ?_, hin, hout, ?_, htarget, ?_⟩
  · rcases hends with ⟨rfl, rfl⟩ | ⟨rfl, rfl⟩
    · exact ⟨h.below.of_stepForward, h.below⟩
    · exact ⟨h.below, h.below.of_stepForward⟩
  · rw [← hends.middle_eq, Grid.halfCellPosition_middle]
  · rw [htarget]
    exact halvedTo_bisect hin hout k

/-- The triangles before their corners are moved. -/
def middleTriangles (s : Solid α) (g : Grid α) : List (Triangle α) :=
  (latticeSurface g.dimensions fun p => s.contains (g.position p)).map
    (Triangle.map g.halfCellPosition)

section Clear

variable (hcell : 0 < g.cellSize) (hborder : ∀ p : LatticePoint, p.Below g.dimensions →
  p.isBorder g.dimensions = true → s.contains (g.position p) = false)

include hcell hborder

/-- Every corner belongs to a crossed edge. -/
theorem exists_edge_of_mem_middleTriangles (hv : v ∈ Triangle.allCorners (middleTriangles s g))
    (k : Nat) : ∃ a low, v = g.halfCellPosition (middle low (stepForward low a)) ∧
      OnEdge g a low (snapTarget s g k v) ∧ ∃ p q, MovedAlong s g k v (snapTarget s g k v) p q := by
  rw [middleTriangles, Triangle.allCorners_map, List.mem_map] at hv
  obtain ⟨h, hh, rfl⟩ := hv
  obtain ⟨a, low, hcrossed, rfl⟩ := (mem_allCorners_latticeSurface_iff hborder).mp hh
  exact ⟨a, low, rfl, exists_movedAlong hcell hcrossed k⟩

/-- Different corners are moved along different edges, so they do not meet. -/
theorem snapTarget_inj {u : Point α} (hu : u ∈ Triangle.allCorners (middleTriangles s g))
    (hv : v ∈ Triangle.allCorners (middleTriangles s g))
    (heq : snapTarget s g k u = snapTarget s g k v) : u = v := by
  obtain ⟨a, low, rfl, honedge, -⟩ := exists_edge_of_mem_middleTriangles hcell hborder hu k
  obtain ⟨b, low', rfl, honedge', -⟩ := exists_edge_of_mem_middleTriangles hcell hborder hv k
  rw [heq] at honedge
  obtain ⟨rfl, rfl⟩ := honedge.unique hcell honedge'
  rfl

end Clear

variable [BEq κ] [Hashable κ] [LawfulBEq κ] [Keyed α κ]

/-- In exact arithmetic, with keys that tell all points apart and no sample inside on the border,
refinement moves every vertex of the unrefined surface by halving the crossed edge that it is the
middle of. Different vertices end at different points, so the faces of the indexed mesh are the
same, and every triangle keeps its handle. -/
theorem marchingCubes_refinement (hkey : Function.Injective (Keyed.key : α → κ))
    {c : MarchingCubesSettings α} (hsteps : 0 < c.refinementSteps)
    (hgrid : Grid.ofBounds s.bounds c.spacing = .ok g)
    (hborder : ∀ p : LatticePoint, p.Below g.dimensions → p.isBorder g.dimensions = true →
      s.contains (g.position p) = false) :
    let unrefined : Except _ (Mesh α κ) := marchingCubes s { c with refinementSteps := 0 }
    unrefined = g.meshOf (middleTriangles s g) ∧
    ∃ target : Point α → Point α, marchingCubes s c = unrefined.map (·.mapPoints target) ∧
      ∀ plain, unrefined = .ok plain → ∃ refined, marchingCubes s c = .ok refined ∧
        refined.entries = plain.entries.map (Prod.map id (Triangle.map target)) ∧
        (∀ v ∈ plain.vertices, ∃ p q, MovedAlong s g c.refinementSteps v (target v) p q) ∧
        (∀ r, r ∈ refined.vertices ↔ ∃ v ∈ plain.vertices, target v = r) ∧
        (∀ u ∈ plain.vertices, ∀ v ∈ plain.vertices, target u = target v → u = v) ∧
        refined.indexed.faces = plain.indexed.faces := by
  intro unrefined
  obtain ⟨-, hcell⟩ := Grid.cellSize_pos hgrid
  let target := snapTarget s g c.refinementSteps
  have hplain : unrefined = g.meshOf (middleTriangles s g) :=
    marchingCubes_eq_meshOf rfl hgrid hborder
  have hrefined : marchingCubes s c = unrefined.map (·.mapPoints target) := by
    rw [marchingCubes_eq_map hgrid, hplain, midpointSurface_eq_meshOf hborder, middleTriangles]
    simp only [if_pos hsteps, snapToSurface_eq_mapPoints hkey]
    rfl
  refine ⟨hplain, target, hrefined, fun plain hok => ?_⟩
  have hcorners : ∀ v, v ∈ plain.vertices ↔ v ∈ Triangle.allCorners (middleTriangles s g) := by
    intro v
    rw [Mesh.mem_vertices_iff hkey, Grid.triangles_of_meshOf (hplain.symm.trans hok)]
  have hdistinct : ∀ u ∈ plain.vertices, ∀ v ∈ plain.vertices, target u = target v → u = v :=
    fun u hu v hv => snapTarget_inj hcell hborder ((hcorners u).mp hu) ((hcorners v).mp hv)
  refine ⟨plain.mapPoints target, by rw [hrefined, hok]; rfl, Mesh.entries_mapPoints plain target,
    fun v hv => ?_, fun r => ?_, hdistinct, Mesh.faces_indexed_mapPoints fun p hp q hq => ?_⟩
  · obtain ⟨-, -, -, -, hmoved⟩ := exists_edge_of_mem_middleTriangles hcell hborder
      ((hcorners v).mp hv) c.refinementSteps
    exact hmoved
  · simp only [Mesh.mem_vertices_iff hkey, Mesh.triangles_mapPoints, Triangle.allCorners_map,
      List.mem_map]
  · rw [← Mesh.mem_vertices_iff hkey] at hp hq
    constructor
    · intro h
      rw [hdistinct p hp q hq (PointKey.ofPoint_injective hkey h)]
    · intro h
      rw [PointKey.ofPoint_injective hkey h]

end Refined

theorem marchingCubes_refinement_cornerPair :
    ∃ plain refined : Mesh Fraction Fraction, marchingCubes cornerPair ⟨1, 0, 0⟩ = .ok plain ∧
      marchingCubes cornerPair ⟨1, 3, 0⟩ = .ok refined ∧
      refined.indexed.faces = plain.indexed.faces := by
  obtain ⟨hplain, target, -, hrefine⟩ :=
    marchingCubes_refinement (κ := Fraction) (fun _ _ h => h) (s := cornerPair) (c := ⟨1, 3, 0⟩)
      (by decide) ofBounds_cornerPair fun _ => contains_cornerPair_of_isBorder
  obtain ⟨plain, hok⟩ := Grid.exists_meshOf_eq_ok (κ := Fraction) cornerPairGrid
    (middleTriangles cornerPair cornerPairGrid) (by decide) (by decide +kernel)
  obtain ⟨refined, hrefined, -, -, -, -, hfaces⟩ := hrefine plain (hplain.trans hok)
  exact ⟨plain, refined, hplain.trans hok, hrefined, hfaces⟩

end SolidSurface
