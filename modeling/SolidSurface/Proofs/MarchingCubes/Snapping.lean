import Mathlib.Tactic.Linarith
import SolidSurface.Proofs.Scalar.Fraction
import SolidSurface.Extraction.Refinement
import SolidSurface.Solid.Elementary
import SolidSurface.Proofs.Bisection
import SolidSurface.Proofs.Grid
import SolidSurface.Proofs.MarchingCubes.Corners

/-! # Which vertices are moved

Refinement rounds a vertex to half-cell coordinates. When these are the middle of an edge that the
surface crosses, the vertex is moved along that edge, and it need not have been in the middle; all
other vertices stay. In exact arithmetic a vertex ends strictly inside its edge, where no other edge
can claim it, so that moving all vertices once more changes nothing.
-/

namespace SolidSurface

open DualContour MarchingCubes
open Std (HashMap)

variable {α κ : Type}

/-! ## Middles of edges -/

section Middle

variable {h p q : LatticePoint} {a : Axis}

theorem edgeAxis?_eq_some_iff :
    h.edgeAxis? = some a ↔ ∀ b, h.get b % 2 = if b = a then 1 else 0 := by
  rw [LatticePoint.edgeAxis?]
  constructor
  · split
    · next hodd =>
        rintro ⟨⟩ b
        have hb : b ∈ Axis.all.filter (fun a => h.get a % 2 == 1) ↔ b = a := by
          rw [hodd, List.mem_singleton]
        rw [List.mem_filter, beq_iff_eq, and_iff_right (by cases b <;> decide)] at hb
        split_ifs with hba
        · exact hb.mpr hba
        · have heven := mt hb.mp hba
          omega
    · rintro ⟨⟩
  · intro hall
    have hodd : ∀ b, (h.get b % 2 == 1) = decide (b = a) := by
      intro b
      rw [hall]
      by_cases hb : b = a <;> simp [hb]
    simp only [hodd]
    cases a <;> rfl

theorem edgeAxis?_middle (low : LatticePoint) (a : Axis) :
    (middle low (stepForward low a)).edgeAxis? = some a := by
  refine edgeAxis?_eq_some_iff.mpr fun b => ?_
  rw [get_middle_stepForward]
  split_ifs <;> omega

/-- Half-cell coordinates with one odd number are the middle of an edge. -/
theorem exists_middle_of_edgeAxis? (hedge : h.edgeAxis? = some a) :
    ∃ low, h = middle low (stepForward low a) := by
  refine ⟨h.map (· / 2), Vec3.ext_get fun b => ?_⟩
  have hb := edgeAxis?_eq_some_iff.mp hedge b
  rw [get_middle_stepForward, Vec3.get_map]
  split_ifs at hb ⊢ <;> omega

theorem neighbours_middle (low : LatticePoint) (a : Axis) :
    (middle low (stepForward low a)).neighbours a =
      (low.map (2 * ·), (stepForward low a).map (2 * ·)) := by
  cases a <;> simp only [LatticePoint.neighbours, middle, stepForward, Vec3.map, Vec3.zipWith,
    Prod.mk.injEq, Vec3.mk.injEq] <;> omega

/-- The ends of an edge, in one order or the other. -/
def EdgeEnds (a : Axis) (low p q : LatticePoint) : Prop :=
  p = low ∧ q = stepForward low a ∨ p = stepForward low a ∧ q = low

theorem EdgeEnds.middle_eq {low : LatticePoint} (h : EdgeEnds a low p q) :
    middle p q = middle low (stepForward low a) := by
  rcases h with ⟨rfl, rfl⟩ | ⟨rfl, rfl⟩
  · rfl
  · exact middle_comm _ _

theorem exists_edgeEnds (h : ∃ a, q = stepForward p a ∨ p = stepForward q a) :
    ∃ a low, EdgeEnds a low p q := by
  obtain ⟨a, rfl | rfl⟩ := h
  · exact ⟨a, p, .inl ⟨rfl, rfl⟩⟩
  · exact ⟨a, q, .inr ⟨rfl, rfl⟩⟩

end Middle

/-! ## One vertex -/

section Vertex

variable [Scalar α] {s : Solid α} {g : Grid α} {v : Point α} {p q : LatticePoint}

/-- The position of a sample by its half-cell coordinates, which are even. -/
def Grid.evenPosition (g : Grid α) (p : LatticePoint) : Point α :=
  g.halfCellPosition (p.map (2 * ·))

/-- The vertex `v` is taken for the middle of the edge from the sample `p`, which is inside, to its
neighbour `q`, which is not. Only the rounded coordinates of `v` count. -/
structure SnapsAlong (s : Solid α) (g : Grid α) (v : Point α) (p q : LatticePoint) : Prop where
  neighbours : ∃ a, q = stepForward p a ∨ p = stepForward q a
  nearest : g.halfCoordinates? v = some (middle p q)
  inside : s.contains (g.evenPosition p) = true
  outside : s.contains (g.evenPosition q) = false

theorem not_snapsAlong_of_eq_none (h : g.halfCoordinates? v = none) (p q : LatticePoint) :
    ¬SnapsAlong s g v p q := fun hsnaps =>
  Option.some_ne_none _ (hsnaps.nearest.symm.trans h)

/-- A vertex that is taken for the middle of a crossed edge is moved along that edge. -/
theorem SnapsAlong.snappedVertex?_eq (h : SnapsAlong s g v p q) (k : Nat) :
    snappedVertex? s g k v = some (bisect s (g.evenPosition p) (g.evenPosition q) k) := by
  obtain ⟨a, low, hends⟩ := exists_edgeEnds h.neighbours
  have hmiddle := hends.middle_eq
  have hin := h.inside
  have hout := h.outside
  rcases hends with ⟨rfl, rfl⟩ | ⟨rfl, rfl⟩ <;> rw [Grid.evenPosition] at hin hout <;>
    simp only [snappedVertex?, h.nearest, hmiddle, edgeAxis?_middle, neighbours_middle, hin, hout,
      Grid.evenPosition, bind, Option.bind]

/-- Every other vertex stays. -/
theorem snappedVertex?_eq_none (h : ∀ p q, ¬SnapsAlong s g v p q) (k : Nat) :
    snappedVertex? s g k v = none := by
  rw [snappedVertex?]
  cases hnearest : g.halfCoordinates? v with
  | none => rfl
  | some m =>
      cases hedge : m.edgeAxis? with
      | none => simp only [bind, Option.bind, hedge]
      | some a =>
          obtain ⟨low, rfl⟩ := exists_middle_of_edgeAxis? hedge
          have hforward := fun hin hout => h low (stepForward low a)
            ⟨⟨a, .inl rfl⟩, hnearest, hin, hout⟩
          have hbackward := fun hin hout => h (stepForward low a) low
            ⟨⟨a, .inr rfl⟩, by rw [hnearest, middle_comm], hin, hout⟩
          simp only [Grid.evenPosition] at hforward hbackward
          simp only [bind, Option.bind, hedge, neighbours_middle]
          split
          · next hin hout => exact (hforward hin hout).elim
          · next hout hin => exact (hbackward hin hout).elim
          · rfl

/-- Where a vertex ends. -/
def snapTarget (s : Solid α) (g : Grid α) (k : Nat) (v : Point α) : Point α :=
  (snappedVertex? s g k v).getD v

theorem SnapsAlong.snapTarget_eq (h : SnapsAlong s g v p q) (k : Nat) :
    snapTarget s g k v = bisect s (g.evenPosition p) (g.evenPosition q) k := by
  rw [snapTarget, h.snappedVertex?_eq, Option.getD_some]

theorem snapTarget_eq_self (h : ∀ p q, ¬SnapsAlong s g v p q) (k : Nat) :
    snapTarget s g k v = v := by
  rw [snapTarget, snappedVertex?_eq_none h, Option.getD_none]

end Vertex

/-! ## All vertices of a mesh -/

section Mesh

variable [Scalar α] [BEq κ] [Hashable κ] [Keyed α κ] {s : Solid α} {g : Grid α} {k : Nat}

/-- Enters where a vertex moves to, unless it stays. -/
def enterMoved (s : Solid α) (g : Grid α) (k : Nat) (moved : HashMap (PointKey κ) (Point α))
    (v : Point α) : HashMap (PointKey κ) (Point α) :=
  match snappedVertex? s g k v with
  | some target => moved.insert (PointKey.ofPoint v) target
  | none => moved

/-- Where a point ends when the vertices in the list have been moved. -/
def movedPoint (s : Solid α) (g : Grid α) (k : Nat) (vs : List (Point α)) (p : Point α) : Point α :=
  (vs.foldl (enterMoved (κ := κ) s g k) ∅).getD (PointKey.ofPoint p) p

theorem snapToSurface_eq (m : Mesh α κ) :
    snapToSurface m s g k = m.mapPoints (movedPoint (κ := κ) s g k m.vertices) := rfl

variable [LawfulBEq κ] {moved : HashMap (PointKey κ) (Point α)} {key : PointKey κ}

theorem getElem?_enterMoved_of_ne {v : Point α} (h : PointKey.ofPoint v ≠ key) :
    (enterMoved s g k moved v)[key]? = moved[key]? := by
  rw [enterMoved]
  split
  · rw [HashMap.getElem?_insert, if_neg (by simpa using h)]
  · rfl

/-- Vertices with other keys leave an entry alone. -/
theorem getElem?_foldl_enterMoved_of_notMem {vs : List (Point α)}
    (h : key ∉ vs.map PointKey.ofPoint) :
    (vs.foldl (enterMoved s g k) moved)[key]? = moved[key]? := by
  induction vs generalizing moved with
  | nil => rfl
  | cons v vs ih =>
      rw [List.map_cons, List.mem_cons, not_or] at h
      rw [List.foldl_cons, ih h.2, getElem?_enterMoved_of_ne (Ne.symm h.1)]

/-- Of vertices with different keys each has its own entry. -/
theorem getElem?_foldl_enterMoved {vs : List (Point α)} {v : Point α}
    (hdistinct : (vs.map PointKey.ofPoint).Nodup) (hv : v ∈ vs)
    (hmoved : moved[(PointKey.ofPoint v : PointKey κ)]? = none) :
    (vs.foldl (enterMoved s g k) moved)[PointKey.ofPoint v]? = snappedVertex? s g k v := by
  induction vs generalizing moved with
  | nil => cases hv
  | cons w vs ih =>
      rw [List.map_cons, List.nodup_cons] at hdistinct
      rw [List.foldl_cons]
      rcases List.mem_cons.mp hv with rfl | hv
      · rw [getElem?_foldl_enterMoved_of_notMem hdistinct.1, enterMoved]
        split
        · next target htarget => rw [HashMap.getElem?_insert_self, htarget]
        · next hstays => rw [hmoved, hstays]
      · refine ih hdistinct.2 hv ?_
        rw [getElem?_enterMoved_of_ne, hmoved]
        intro heq
        exact hdistinct.1 (List.mem_map.mpr ⟨v, hv, heq.symm⟩)

/-- A corner goes where the vertex with its key goes. -/
theorem exists_movedPoint_eq (m : Mesh α κ) {v : Point α}
    (hv : v ∈ Triangle.allCorners m.triangles) :
    ∃ u ∈ m.vertices, (PointKey.ofPoint u : PointKey κ) = PointKey.ofPoint v ∧
      movedPoint (κ := κ) s g k m.vertices v = (snappedVertex? s g k u).getD v := by
  have hvertices := Mesh.listsVertices_vertices m
  obtain ⟨u, hu, heq⟩ := hvertices.exists_mem v hv
  refine ⟨u, hu, heq, ?_⟩
  rw [movedPoint, HashMap.getD_eq_getD_getElem?, ← heq,
    getElem?_foldl_enterMoved hvertices.nodup hu HashMap.getElem?_empty]

/-- With keys that tell all points apart every corner moves by itself. -/
theorem snapToSurface_eq_mapPoints (hkey : Function.Injective (Keyed.key : α → κ))
    (m : Mesh α κ) : snapToSurface m s g k = m.mapPoints (snapTarget s g k) := by
  rw [snapToSurface_eq]
  refine Mesh.mapPoints_congr fun v hv => ?_
  obtain ⟨u, -, heq, hmoved⟩ := exists_movedPoint_eq (s := s) (g := g) (k := k) m hv
  rw [hmoved, PointKey.ofPoint_injective hkey heq, snapTarget]

/-- A corner is moved when the vertex with its key is taken for the middle of a crossed edge of the
grid, to where halving that edge ends. All other corners stay where they are, and every triangle
keeps its handle. -/
theorem entries_snapToSurface (m : Mesh α κ) (s : Solid α) (g : Grid α) (k : Nat) :
    ∃ f : Point α → Point α,
      (snapToSurface m s g k).entries = m.entries.map (Prod.map id (Triangle.map f)) ∧
      ∀ v ∈ Triangle.allCorners m.triangles,
        ∃ u ∈ m.vertices, (PointKey.ofPoint u : PointKey κ) = PointKey.ofPoint v ∧
          (∀ p q, SnapsAlong s g u p q →
            f v = bisect s (g.evenPosition p) (g.evenPosition q) k) ∧
          ((∀ p q, ¬SnapsAlong s g u p q) → f v = v) := by
  refine ⟨_, by rw [snapToSurface_eq, Mesh.entries_mapPoints], fun v hv => ?_⟩
  obtain ⟨u, hu, heq, hmoved⟩ := exists_movedPoint_eq (s := s) (g := g) (k := k) m hv
  refine ⟨u, hu, heq, fun p q h => ?_, fun h => ?_⟩
  · rw [hmoved, h.snappedVertex?_eq, Option.getD_some]
  · rw [hmoved, snappedVertex?_eq_none h, Option.getD_none]

end Mesh

def unitCuboid : Solid Fraction :=
  (⟨⟨0, 0, 0⟩, ⟨1, 1, 1⟩⟩ : Cuboid Fraction).solid

def unitCuboidGrid : Grid Fraction :=
  ⟨⟨4, 4, 4⟩, ⟨-1, -1, -1⟩, 1⟩

/-- Two fifths of the way along an edge is near enough to its middle. -/
theorem snapsAlong_unitCuboid :
    SnapsAlong unitCuboid unitCuboidGrid ⟨7 / 5, 1, 1⟩ ⟨2, 2, 2⟩ ⟨3, 2, 2⟩ :=
  ⟨⟨.x, .inl rfl⟩, by decide +kernel, by decide +kernel, by decide +kernel⟩

/-- A corner two fifths of the way along a crossed edge is moved to the middle of that edge; the
other two are off the grid and stay. -/
theorem entries_snapToSurface_offMiddle :
    let m : Mesh Fraction Fraction := .ofList [⟨⟨7 / 5, 1, 1⟩, ⟨5, 0, 0⟩, ⟨0, 5, 0⟩⟩] (by decide)
    Grid.ofBounds unitCuboid.bounds 1 = .ok unitCuboidGrid ∧
      (snapToSurface m unitCuboid unitCuboidGrid 0).entries =
        [(⟨0⟩, ⟨⟨3 / 2, 1, 1⟩, ⟨5, 0, 0⟩, ⟨0, 5, 0⟩⟩)] := by
  intro m
  obtain ⟨f, hentries, hf⟩ := entries_snapToSurface m unitCuboid unitCuboidGrid 0
  have hsame : Function.Injective (PointKey.ofPoint : Point Fraction → PointKey Fraction) :=
    PointKey.ofPoint_injective fun _ _ h => h
  have hmoved : f ⟨7 / 5, 1, 1⟩ = ⟨3 / 2, 1, 1⟩ := by
    obtain ⟨u, -, hkey, hmoves, -⟩ := hf ⟨7 / 5, 1, 1⟩ (by decide +kernel)
    rw [hmoves _ _ (hsame hkey ▸ snapsAlong_unitCuboid)]
    decide +kernel
  have hstays : ∀ v ∈ Triangle.allCorners m.triangles,
      unitCuboidGrid.halfCoordinates? v = none → f v = v := by
    intro v hv hoff
    obtain ⟨u, -, hkey, -, hstay⟩ := hf v hv
    exact hstay (not_snapsAlong_of_eq_none (hsame hkey ▸ hoff))
  have hb := hstays ⟨5, 0, 0⟩ (by decide +kernel) (by decide +kernel)
  have hc := hstays ⟨0, 5, 0⟩ (by decide +kernel) (by decide +kernel)
  refine ⟨by with_unfolding_all rfl, ?_⟩
  rw [hentries]
  simp [m, Mesh.entries, Mesh.ofList, Triangle.map, hmoved, hb, hc]

/-! ## Between the ends of an edge -/

/-- Strictly inside an edge, at the fraction `t` of the way from its lower end to the next
sample. -/
def OnEdge [FieldScalar α] (g : Grid α) (a : Axis) (low : LatticePoint) (r : Point α) : Prop :=
  ∃ t : α, 0 < t ∧ t < 1 ∧
    ∀ d, r.get d = g.origin.get d + ((low.get d : α) + if d = a then t else 0) * g.cellSize

theorem onEdge_toward [FieldScalar α] (g : Grid α) (a : Axis) (low : LatticePoint) {t : α}
    (ht₀ : 0 < t) (ht₁ : t < 1) :
    OnEdge g a low ((g.position low).toward (g.position (stepForward low a)) t) ∧
      OnEdge g a low ((g.position (stepForward low a)).toward (g.position low) t) := by
  have hstep : ∀ d, ((stepForward low a).get d : α) = low.get d + if d = a then 1 else 0 := by
    intro d
    split_ifs with hd
    · rw [hd, LatticePoint.get_stepForward_self, Nat.cast_succ]
    · rw [LatticePoint.get_stepForward_of_ne low hd, add_zero]
  constructor
  · refine ⟨t, ht₀, ht₁, fun d => ?_⟩
    rw [Vec3.get_toward, Grid.get_position_eq, Grid.get_position_eq, hstep]
    split_ifs <;> ring
  · refine ⟨1 - t, by linarith, by linarith, fun d => ?_⟩
    rw [Vec3.get_toward, Grid.get_position_eq, Grid.get_position_eq, hstep]
    split_ifs <;> ring

section Exact

variable [CountingScalar α] {s : Solid α} {g : Grid α} {k : Nat} {a b : Axis}
  {low low' m p q p' q' : LatticePoint} {v r : Point α}

theorem natCast_le_of_lt {i j : Nat} (h : (i : α) < j + 1) : i ≤ j :=
  Nat.lt_succ_iff.mp (by exact_mod_cast h)

/-- Rounding keeps a point that is inside an edge on that edge: only along it can it move, and not
past the ends. -/
theorem OnEdge.get_of_halfCoordinates? (hcell : g.cellSize ≠ 0) (h : OnEdge g a low r)
    (hm : g.halfCoordinates? r = some m) (d : Axis) :
    2 * low.get d ≤ m.get d ∧ m.get d ≤ 2 * low.get d + if d = a then 2 else 0 := by
  obtain ⟨t, ht₀, ht₁, hr⟩ := h
  have hrel : (r.get d - g.origin.get d) / (g.cellSize * Scalar.half) =
      2 * low.get d + if d = a then 2 * t else 0 := by
    rw [hr, add_sub_cancel_left, Scalar.half_eq, div_eq_iff (by simpa using hcell)]
    split_ifs <;> ring
  have hnear := (Grid.halfCoordinate?_spec (Grid.halfCoordinates?_eq_some_iff.mp hm d)).2
  rw [hrel, abs_le] at hnear
  constructor
  · refine natCast_le_of_lt (α := α) ?_
    split_ifs at hnear <;> push_cast <;> linarith
  · refine natCast_le_of_lt (α := α) ?_
    split_ifs at hnear ⊢ <;> push_cast <;> linarith

/-- A point inside an edge is taken for the middle of no other edge. -/
theorem OnEdge.eq_of_halfCoordinates? (hcell : g.cellSize ≠ 0) (h : OnEdge g a low r)
    (hm : g.halfCoordinates? r = some (middle low' (stepForward low' b))) :
    b = a ∧ low' = low := by
  have hnear := h.get_of_halfCoordinates? hcell hm
  simp only [get_middle_stepForward] at hnear
  have hba : b = a := by
    by_contra hne
    have hb := hnear b
    rw [if_pos rfl, if_neg hne] at hb
    omega
  refine ⟨hba, Vec3.ext_get fun d => ?_⟩
  have hd := hnear d
  rw [hba] at hd
  split_ifs at hd <;> omega

/-! ## Moving once more -/

theorem Grid.evenPosition_eq (g : Grid α) (p : LatticePoint) : g.evenPosition p = g.position p :=
  g.halfCellPosition_double p

theorem Grid.halfCellPosition_middle (g : Grid α) (p q : LatticePoint) :
    g.halfCellPosition (middle p q) = (g.position p).midpoint (g.position q) := by
  refine Vec3.ext_get fun d => ?_
  rw [get_halfCellPosition_eq, Vec3.get_midpoint, get_position_eq, get_position_eq, middle,
    Vec3.get_zipWith]
  push_cast
  ring

/-- On a grid without extent every point is rounded to the corner, which is no middle. -/
theorem SnapsAlong.cellSize_ne_zero (h : SnapsAlong s g v p q) : g.cellSize ≠ 0 := by
  intro hzero
  obtain ⟨a, low, hends⟩ := exists_edgeEnds h.neighbours
  have hnear := (Grid.halfCoordinate?_spec
    (Grid.halfCoordinates?_eq_some_iff.mp (hends.middle_eq ▸ h.nearest) a)).2
  rw [hzero, zero_mul, div_zero, zero_sub, abs_neg, Nat.abs_cast, get_middle_stepForward,
    if_pos rfl] at hnear
  have hlow : (0 : α) ≤ low.get a := Nat.cast_nonneg _
  push_cast at hnear
  linarith

/-- A vertex that is moved ends strictly inside its edge. -/
theorem SnapsAlong.onEdge_snapTarget (h : SnapsAlong s g v p q) (hends : EdgeEnds a low p q)
    (k : Nat) : OnEdge g a low (snapTarget s g k v) := by
  obtain ⟨t, ht₀, ht₁, ht⟩ := (halvedTo_bisect h.inside h.outside k).exists_eq_toward
  obtain ⟨hforward, hbackward⟩ := onEdge_toward g a low ht₀ ht₁
  rw [h.snapTarget_eq, ht, Grid.evenPosition_eq, Grid.evenPosition_eq]
  rcases hends with ⟨rfl, rfl⟩ | ⟨rfl, rfl⟩
  · exact hforward
  · exact hbackward

/-- Where a vertex ends it is taken for the middle of its own edge or of none. -/
theorem SnapsAlong.eq_of_snapTarget (h : SnapsAlong s g v p q)
    (h' : SnapsAlong s g (snapTarget s g k v) p' q') : p' = p ∧ q' = q := by
  obtain ⟨a, low, hends⟩ := exists_edgeEnds h.neighbours
  obtain ⟨b, low', hends'⟩ := exists_edgeEnds h'.neighbours
  obtain ⟨rfl, rfl⟩ := (h.onEdge_snapTarget hends k).eq_of_halfCoordinates? h.cellSize_ne_zero
    (hends'.middle_eq ▸ h'.nearest)
  have hin := h.inside
  have hout := h'.outside
  -- The inner end of an edge cannot be its outer end, so both name the ends in the same order.
  rcases hends with ⟨rfl, rfl⟩ | ⟨rfl, rfl⟩ <;> rcases hends' with ⟨rfl, rfl⟩ | ⟨rfl, rfl⟩
  · exact ⟨rfl, rfl⟩
  · exact absurd (hin.symm.trans hout) (by decide)
  · exact absurd (hin.symm.trans hout) (by decide)
  · exact ⟨rfl, rfl⟩

/-- A vertex that has been moved stays where it is. -/
theorem snapTarget_snapTarget (s : Solid α) (g : Grid α) (k : Nat) (v : Point α) :
    snapTarget s g k (snapTarget s g k v) = snapTarget s g k v := by
  by_cases hmoved : ∃ p q, SnapsAlong s g v p q
  · obtain ⟨p, q, h⟩ := hmoved
    by_cases hagain : ∃ p' q', SnapsAlong s g (snapTarget s g k v) p' q'
    · obtain ⟨p', q', h'⟩ := hagain
      obtain ⟨rfl, rfl⟩ := h.eq_of_snapTarget h'
      rw [h'.snapTarget_eq, h.snapTarget_eq]
    · exact snapTarget_eq_self (fun p' q' h' => hagain ⟨p', q', h'⟩) k
  · have hstays : snapTarget s g k v = v :=
      snapTarget_eq_self (fun p q h => hmoved ⟨p, q, h⟩) k
    rw [hstays, hstays]

/-- In exact arithmetic, with keys that tell all points apart, refinement moves the corners that are
taken for the middle of a crossed edge, and these alone, to where halving that edge ends. Every
triangle keeps its handle, and refining the mesh once more changes nothing, whatever the mesh and
the grid. -/
theorem snapToSurface_idempotent [BEq κ] [Hashable κ] [LawfulBEq κ] [Keyed α κ]
    (hkey : Function.Injective (Keyed.key : α → κ)) (m : Mesh α κ) (s : Solid α) (g : Grid α)
    (k : Nat) :
    (∃ f : Point α → Point α,
      (snapToSurface m s g k).entries = m.entries.map (Prod.map id (Triangle.map f)) ∧
      (∀ v p q, SnapsAlong s g v p q → f v = bisect s (g.position p) (g.position q) k) ∧
      ∀ v, (∀ p q, ¬SnapsAlong s g v p q) → f v = v) ∧
    snapToSurface (snapToSurface m s g k) s g k = snapToSurface m s g k := by
  rw [snapToSurface_eq_mapPoints hkey, snapToSurface_eq_mapPoints hkey]
  refine ⟨⟨snapTarget s g k, Mesh.entries_mapPoints m _, fun v p q h => ?_,
    fun v h => snapTarget_eq_self h k⟩, ?_⟩
  · rw [h.snapTarget_eq, Grid.evenPosition_eq, Grid.evenPosition_eq]
  · rw [Mesh.mapPoints_mapPoints]
    exact Mesh.mapPoints_congr fun v _ => snapTarget_snapTarget s g k v

end Exact

/-- After three halvings the corner is next to a sample, for which it is then taken. -/
theorem snapToSurface_idempotent_offMiddle :
    let m : Mesh Fraction Fraction := .ofList [⟨⟨7 / 5, 1, 1⟩, ⟨5, 0, 0⟩, ⟨0, 5, 0⟩⟩] (by decide)
    let refined := snapToSurface m unitCuboid unitCuboidGrid 3
    refined.entries = [(⟨0⟩, ⟨⟨17 / 16, 1, 1⟩, ⟨5, 0, 0⟩, ⟨0, 5, 0⟩⟩)] ∧
      snapToSurface refined unitCuboid unitCuboidGrid 3 = refined := by
  intro m refined
  obtain ⟨⟨f, hentries, hmoves, hstays⟩, hsame⟩ :=
    snapToSurface_idempotent (fun _ _ h => h) m unitCuboid unitCuboidGrid 3
  have hmoved : f ⟨7 / 5, 1, 1⟩ = ⟨17 / 16, 1, 1⟩ := by
    rw [hmoves _ _ _ snapsAlong_unitCuboid]
    decide +kernel
  have hb := hstays ⟨5, 0, 0⟩ (not_snapsAlong_of_eq_none (by decide +kernel))
  have hc := hstays ⟨0, 5, 0⟩ (not_snapsAlong_of_eq_none (by decide +kernel))
  refine ⟨?_, hsame⟩
  rw [hentries]
  simp [m, Mesh.entries, Mesh.ofList, Triangle.map, hmoved, hb, hc]

end SolidSurface
