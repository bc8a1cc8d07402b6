import SolidSurface.Proofs.Scalar.Fraction
import SolidSurface.Proofs.Box
import SolidSurface.Proofs.Lattice.Crossing
import SolidSurface.Proofs.Lattice.Listing
import SolidSurface.Proofs.DualContour.Winding

/-! # Every crossing is shown once

A sweep through any number of rows writes two triangles for each crossed edge of the lattice,
between the vertices of the four cubes around it, and nothing else. The vertices that occur are
therefore those of the mixed cubes, and a clipped one lies in its own cube.
-/

namespace SolidSurface

namespace DualContour

variable {γ ν μ : Type} {n : Vec3 Nat} {inside : LatticePoint → Bool} {a : Axis}
  {low cube : LatticePoint}

/-! ## Triangles between cubes -/

def Facet.map (f : ν → μ) : Facet ν → Facet μ
  | (u, v, w) => (f u, f v, f w)

def Facet.corners : Facet ν → List ν
  | (u, v, w) => [u, v, w]

theorem Facet.corners_map (f : ν → μ) (t : Facet ν) : (t.map f).corners = t.corners.map f :=
  rfl

/-- The two triangles between the cubes around an edge, with their front on the outside. -/
def cubePair (inside : LatticePoint → Bool) (a : Axis) (low : LatticePoint) :
    List (Facet LatticePoint) :=
  let ring := (cubesAround low a).filterMap id
  ringFacets (if inside low then ring else ring.reverse)

theorem cubePair_across (q : LatticePoint) (a : Axis) : cubePair inside a (across q a) =
    ringFacets (if inside (across q a) then cubeRing q a else (cubeRing q a).reverse) := by
  rw [cubePair, cubesAround_across, List.filterMap_map, Function.id_comp, List.filterMap_some]

theorem ringFacets_map (f : ν → μ) (ring : List ν) :
    ringFacets (ring.map f) = (ringFacets ring).map (Facet.map f) := by
  rcases ring with _ | ⟨v₁, _ | ⟨v₂, _ | ⟨v₃, _ | ⟨v₄, _ | ⟨v₅, rest⟩⟩⟩⟩⟩ <;> rfl

/-- The triangles of an edge have the cubes around it as their corners. -/
theorem exists_mem_cubePair_across_iff {q : LatticePoint} :
    (∃ f ∈ cubePair inside a (across q a), cube ∈ Facet.corners f) ↔ cube ∈ cubeRing q a := by
  obtain ⟨c₁, c₂, c₃, c₄, hring⟩ := LatticeField.exists_cubeRing_eq q a
  rw [cubePair_across, hring]
  cases inside (across q a) <;> simp [ringFacets, Facet.corners] <;> grind

/-! ## The crossed edges in the order of the sweep -/

def crossedEdges (n : Vec3 Nat) (inside : LatticePoint → Bool) : List (Axis × LatticePoint) :=
  (List.range (n.z - 1)).flatMap fun k => Axis.all.flatMap fun a =>
    ((layerEdges n a k).filter fun low => inside low != inside (stepForward low a)).map (a, ·)

theorem nodup_layerEdges (n : Vec3 Nat) (a : Axis) (k : Nat) : (layerEdges n a k).Nodup := by
  refine List.Nodup.map (fun i j h => ?_) List.nodup_range
  simp only [pointAt, Vec3.mk.injEq] at h
  rw [← Nat.mod_add_div i (edgeWidth n a), h.1, h.2.1, Nat.mod_add_div]

theorem nodup_crossedEdges (n : Vec3 Nat) (inside : LatticePoint → Bool) :
    (crossedEdges n inside).Nodup := by
  refine LatticePoint.nodup_flatMap_of_tag (fun e => e.2.z) List.nodup_range (fun k _ => ?_) ?_
  · refine LatticePoint.nodup_flatMap_of_tag Prod.fst (by decide) (fun a _ => ?_)
      (by simp +contextual)
    exact ((nodup_layerEdges n a k).filter _).map (Prod.mk_right_injective a)
  · intro k e he
    simp only [List.mem_flatMap, List.mem_map, List.mem_filter] at he
    obtain ⟨a, -, low, ⟨hlow, -⟩, rfl⟩ := he
    exact (mem_layerEdges.mp hlow).2.2

theorem crossedEdge_of_mem (h : (a, low) ∈ crossedEdges n inside) : CrossedEdge n inside a low := by
  simp only [crossedEdges, List.mem_flatMap, List.mem_map, List.mem_filter, List.mem_range,
    Prod.mk.injEq, bne_iff_ne] at h
  obtain ⟨k, hk, a', -, low', ⟨hlow, hdiffer⟩, rfl, rfl⟩ := h
  exact ⟨stepForward_below_of_mem_layerEdges hlow (by omega) fun _ => by omega, hdiffer⟩

/-- No crossed edge starts in the last layer, as that is all border. -/
theorem mem_crossedEdges_iff
    (hborder : ∀ p : LatticePoint, p.Below n → p.isBorder n = true → inside p = false) :
    (a, low) ∈ crossedEdges n inside ↔ CrossedEdge n inside a low := by
  refine ⟨crossedEdge_of_mem, fun h => ?_⟩
  have hlayer : low.z < n.z - 1 := by
    by_cases ha : a = .z
    · have hz := h.below.2.2
      rw [ha] at hz
      exact Nat.lt_sub_of_add_lt hz
    · exact Nat.lt_sub_of_add_lt (h.get_across hborder (Ne.symm ha)).2
  have hmem : low ∈ layerEdges n a low.z := by
    obtain ⟨hx, hy, -⟩ := h.below
    rw [mem_layerEdges]
    cases a <;> simp only [stepForward] at hx hy <;>
      exact ⟨by simp only [edgeWidth]; omega, by simp only [edgeHeight]; omega, rfl⟩
  simp only [crossedEdges, List.mem_flatMap, List.mem_map, List.mem_filter, List.mem_range,
    bne_iff_ne]
  exact ⟨low.z, hlayer, a, by cases a <;> decide, low, ⟨hmem, h.differ⟩, rfl⟩

/-! ## The triangles of a lattice -/

theorem flatMap_filter_of_eq_nil {β δ : Type} {l : List β} {p : β → Bool} {f : β → List δ}
    (h : ∀ b ∈ l, p b = false → f b = []) : (l.filter p).flatMap f = l.flatMap f := by
  induction l with
  | nil => rfl
  | cons b l ih =>
      have hl := ih fun c hc => h c (List.mem_cons_of_mem b hc)
      cases hb : p b with
      | true => rw [List.filter_cons_of_pos hb, List.flatMap_cons, List.flatMap_cons, hl]
      | false =>
          rw [List.filter_cons_of_neg (by simp [hb]), List.flatMap_cons,
            h b List.mem_cons_self hb, hl, List.nil_append]

namespace LatticeField

variable {F : LatticeField γ ν}

theorem crossing?_ne_none_iff :
    F.crossing? a low ≠ none ↔ F.inside low ≠ F.inside (stepForward low a) := by
  simp [crossing?]

/-- The mixed cubes are those with a vertex. -/
theorem isSome_vertex?_iff : (F.vertex? cube).isSome = true ↔ MixedCube F.inside cube := by
  rw [mixedCube_iff]
  constructor
  · intro h
    refine Classical.byContradiction fun hnone => ?_
    have hcrossings : F.cubeCrossings cube = [] := List.filterMap_eq_nil_iff.mpr fun e he =>
      crossing?_eq_none (not_not.mp fun hne => hnone ⟨e, he, hne⟩)
    rw [vertex?, hcrossings] at h
    cases h
  · rintro ⟨⟨a, low⟩, hmem, hne⟩
    exact isSome_vertex? hmem (crossing?_ne_none_iff.mpr hne)

theorem facetsBelow_eq_flatMap_crossedEdges :
    F.facetsBelow (F.dimensions.z - 1) =
      (crossedEdges F.dimensions F.inside).flatMap fun e => F.facets e.1 e.2 := by
  simp only [facetsBelow, crossedEdges, List.flatMap_assoc, List.flatMap_map]
  refine List.flatMap_congr fun k _ => List.flatMap_congr fun a _ => ?_
  symm
  refine flatMap_filter_of_eq_nil fun low _ hsame => facets_eq_nil (crossing?_eq_none ?_)
  simpa using hsame

variable {vertex : LatticePoint → ν}
  (hvertex : ∀ cube, MixedCube F.inside cube → F.vertex? cube = some (vertex cube))

include hvertex

/-- A crossed edge has the triangles between the vertices of the cubes around it. -/
theorem facets_across {q : LatticePoint}
    (hne : F.inside (across q a) ≠ F.inside (stepForward (across q a) a)) :
    F.facets a (across q a) = (cubePair F.inside a (across q a)).map (Facet.map vertex) := by
  have hcross := crossing?_ne_none_iff.mpr hne
  obtain ⟨g, hg⟩ := Option.ne_none_iff_exists'.mp hcross
  obtain ⟨c₁, c₂, c₃, c₄, hring⟩ := exists_cubeRing_eq q a
  obtain ⟨v₁, v₂, v₃, v₄, h₁, h₂, h₃, h₄, hfound⟩ := exists_vertices_of_crossed hcross hring
  have hmap : [v₁, v₂, v₃, v₄] = (cubeRing q a).map vertex := by
    have heq : ∀ {c v}, F.vertex? c = some v → v = vertex c := by
      intro c v hv
      have hmixed := isSome_vertex?_iff.mp (Option.isSome_of_eq_some hv)
      exact Option.some.inj (hv.symm.trans (hvertex c hmixed))
    rw [hring, heq h₁, heq h₂, heq h₃, heq h₄]
    rfl
  rw [facets, hg, hfound, hmap, cubePair_across, ← ringFacets_map]
  cases F.inside (across q a) <;> simp

end LatticeField

/-! ## Every crossing once -/

/-- A list of triangles that shows every crossed edge of a lattice once: it has two triangles for
each, between the vertices of the four cubes around it, and no others. -/
structure ShowsCrossings (n : Vec3 Nat) (inside : LatticePoint → Bool)
    (vertex : LatticePoint → ν) (facets : List (Facet ν)) : Prop where
  facets_eq : facets =
    ((crossedEdges n inside).flatMap fun e => cubePair inside e.1 e.2).map (Facet.map vertex)
  nodup : (crossedEdges n inside).Nodup
  mem_iff : ∀ a low, (a, low) ∈ crossedEdges n inside ↔ CrossedEdge n inside a low
  /-- The triangles of an edge are wound the other way when its low end is outside. -/
  cubePair_eq : ∀ a low, CrossedEdge n inside a low → ∃ c₁ c₂ c₃ c₄,
    cubesAround low a = [some c₁, some c₂, some c₃, some c₄] ∧ [c₁, c₂, c₃, c₄].Nodup ∧
      (∀ cube, cube ∈ [c₁, c₂, c₃, c₄] ↔ (a, low) ∈ cubeEdges cube) ∧
      cubePair inside a low = if inside low then [(c₁, c₂, c₃), (c₁, c₃, c₄)]
        else [(c₄, c₃, c₂), (c₄, c₂, c₁)]
  length_eq : facets.length = 2 * (crossedEdges n inside).length
  used_iff : ∀ cube, (∃ e ∈ crossedEdges n inside, ∃ f ∈ cubePair inside e.1 e.2,
    cube ∈ Facet.corners f) ↔ cube.Below (n.map (· - 1)) ∧ MixedCube inside cube
  corner_iff : ∀ v, (∃ f ∈ facets, v ∈ Facet.corners f) ↔
    ∃ cube : LatticePoint, cube.Below (n.map (· - 1)) ∧ MixedCube inside cube ∧ vertex cube = v

section Clear

variable (hborder : ∀ p : LatticePoint, p.Below n → p.isBorder n = true → inside p = false)

include hborder

theorem exists_cubePair_eq (h : CrossedEdge n inside a low) : ∃ c₁ c₂ c₃ c₄,
    cubesAround low a = [some c₁, some c₂, some c₃, some c₄] ∧ [c₁, c₂, c₃, c₄].Nodup ∧
      (∀ cube, cube ∈ [c₁, c₂, c₃, c₄] ↔ (a, low) ∈ cubeEdges cube) ∧
      cubePair inside a low = if inside low then [(c₁, c₂, c₃), (c₁, c₃, c₄)]
        else [(c₄, c₃, c₂), (c₄, c₂, c₁)] := by
  obtain ⟨c₁, c₂, c₃, c₄, haround, hnodup, hmem⟩ := h.exists_cubesAround_eq hborder
  refine ⟨c₁, c₂, c₃, c₄, haround, hnodup, hmem, ?_⟩
  rw [cubePair, haround]
  cases inside low <;> rfl

theorem length_flatMap_cubePair {edges : List (Axis × LatticePoint)}
    (hedges : ∀ e ∈ edges, CrossedEdge n inside e.1 e.2) :
    (edges.flatMap fun e => cubePair inside e.1 e.2).length = 2 * edges.length := by
  induction edges with
  | nil => rfl
  | cons e edges ih =>
      obtain ⟨c₁, c₂, c₃, c₄, -, -, -, hpair⟩ :=
        exists_cubePair_eq hborder (hedges e List.mem_cons_self)
      have htwo : (cubePair inside e.1 e.2).length = 2 := by
        rw [hpair]
        split <;> rfl
      rw [List.flatMap_cons, List.length_append, htwo,
        ih fun e' he' => hedges e' (List.mem_cons_of_mem e he'), List.length_cons]
      omega

/-- The cubes that the triangles run between are the mixed ones. -/
theorem exists_mem_crossedEdges_iff : (∃ e ∈ crossedEdges n inside,
    ∃ f ∈ cubePair inside e.1 e.2, cube ∈ Facet.corners f) ↔
      cube.Below (n.map (· - 1)) ∧ MixedCube inside cube := by
  rw [mixedCube_iff]
  constructor
  · rintro ⟨⟨a, low⟩, he, hcorner⟩
    have hcrossed := crossedEdge_of_mem he
    obtain ⟨q, rfl⟩ := hcrossed.exists_across hborder
    have hmem := mem_cubeRing_iff.mp (exists_mem_cubePair_across_iff.mp hcorner)
    exact ⟨hcrossed.cube_below hborder hmem, (a, across q a), hmem, hcrossed.differ⟩
  · rintro ⟨hcube, ⟨a, low⟩, hmem, hdiffer⟩
    have hcrossed : CrossedEdge n inside a low :=
      ⟨stepForward_below_of_mem_cubeEdges hcube hmem, hdiffer⟩
    refine ⟨(a, low), (mem_crossedEdges_iff hborder).mpr hcrossed, ?_⟩
    obtain ⟨q, rfl⟩ := hcrossed.exists_across hborder
    exact exists_mem_cubePair_across_iff.mpr (mem_cubeRing_iff.mpr hmem)

end Clear

theorem LatticeField.showsCrossings_facetsBelow {F : LatticeField γ ν} {vertex : LatticePoint → ν}
    (hborder : ∀ p : LatticePoint, p.Below F.dimensions → p.isBorder F.dimensions = true →
      F.inside p = false)
    (hvertex : ∀ cube, MixedCube F.inside cube → F.vertex? cube = some (vertex cube)) :
    ShowsCrossings F.dimensions F.inside vertex (F.facetsBelow (F.dimensions.z - 1)) := by
  have hfacets : F.facetsBelow (F.dimensions.z - 1) = ((crossedEdges F.dimensions F.inside).flatMap
      fun e => cubePair F.inside e.1 e.2).map (Facet.map vertex) := by
    rw [facetsBelow_eq_flatMap_crossedEdges, List.map_flatMap]
    refine List.flatMap_congr fun e he => ?_
    have hcrossed := crossedEdge_of_mem he
    obtain ⟨q, hq⟩ := hcrossed.exists_across hborder
    have hdiffer := hcrossed.differ
    rw [hq] at hdiffer ⊢
    exact facets_across hvertex hdiffer
  refine ⟨hfacets, nodup_crossedEdges _ _, fun _ _ => mem_crossedEdges_iff hborder,
    fun _ _ => exists_cubePair_eq hborder, ?_, fun _ => exists_mem_crossedEdges_iff hborder,
    fun v => ?_⟩
  · rw [hfacets, List.length_map,
      length_flatMap_cubePair hborder fun e he => crossedEdge_of_mem he]
  · simp only [hfacets, List.mem_map, List.mem_flatMap]
    constructor
    · rintro ⟨_, ⟨f, ⟨e, he, hf⟩, rfl⟩, hv⟩
      rw [Facet.corners_map, List.mem_map] at hv
      obtain ⟨cube, hcorner, rfl⟩ := hv
      obtain ⟨hcube, hmixed⟩ :=
        (exists_mem_crossedEdges_iff hborder).mp ⟨e, he, f, hf, hcorner⟩
      exact ⟨cube, hcube, hmixed, rfl⟩
    · rintro ⟨cube, hcube, hmixed, rfl⟩
      obtain ⟨e, he, f, hf, hcorner⟩ :=
        (exists_mem_crossedEdges_iff hborder).mpr ⟨hcube, hmixed⟩
      exact ⟨f.map vertex, ⟨f, ⟨e, he, hf⟩, rfl⟩, List.mem_map_of_mem hcorner⟩

/-- The vertices of the mixed cubes. Other cubes have none, and get any. -/
theorem LatticeField.exists_vertex (F : LatticeField γ ν) (any : ν) :
    ∃ vertex : LatticePoint → ν,
      ∀ cube, MixedCube F.inside cube → F.vertex? cube = some (vertex cube) := by
  refine ⟨fun cube => (F.vertex? cube).getD any, fun cube hmixed => ?_⟩
  obtain ⟨v, hv⟩ := Option.isSome_iff_exists.mp (LatticeField.isSome_vertex?_iff.mpr hmixed)
  simp only [hv, Option.getD_some]

end DualContour

/-! ## The surface in space -/

open DualContour

section Surface

variable {α κ : Type} [Scalar α] [BEq κ] [Hashable κ]

/-- A clipped vertex is where its own cell clamps the fitted point. -/
theorem includes_vertex? {e : SurfaceEstimator α} {g : Grid α} {w : α} {cube : LatticePoint}
    {v : Point α} (h : (field e g w true).vertex? cube = some v) : (cell g cube).Includes v := by
  rw [LatticeField.vertex?] at h
  split at h
  · cases h
  · rw [← Option.some.inj h]
    exact Box.includes_clamp _ _

/-- With no sample inside on the border, dual contouring shows every crossed edge of its grid once,
whatever number of rows the sweep keeps. With clipping on, a vertex lies in the cell of its
cube wherever the planes were fitted to: it does so in any arithmetic in which the cell holds its
own corners. -/
theorem dualContour_showsCrossings {e : SurfaceEstimator α} {c : DualContourSettings α}
    {g : Grid α} (hcheck : c.check = .ok ())
    (hgrid : Grid.ofBounds e.solid.bounds c.spacing = .ok g)
    (hborder : ∀ p : LatticePoint, p.Below g.dimensions → p.isBorder g.dimensions = true →
      e.solid.contains (g.position p) = false) :
    ∃ (vertex : LatticePoint → Point α) (facets : List (Facet (Point α))),
      (∀ cube, MixedCube (fun p => e.solid.contains (g.position p)) cube →
        (field e g c.regularization c.clip).vertex? cube = some (vertex cube)) ∧
      ShowsCrossings g.dimensions (fun p => e.solid.contains (g.position p)) vertex facets ∧
      (∀ rows, sweep (field e g c.regularization c.clip) rows = .ok facets.toArray) ∧
      (dualContourUsing e c : Except _ (Mesh α κ)) =
        (if ¬LayersFit g.dimensions then .error .capacityOverflow
        else (Mesh.ofTriangles (facets.map fun (u, v, w) => ⟨u, v, w⟩)).mapError .mesh) ∧
      (c.clip = true → ∀ cube, MixedCube (fun p => e.solid.contains (g.position p)) cube →
        (cell g cube).Includes (vertex cube) ∧
        ((cell g cube).contains (cell g cube).lower = true →
          (cell g cube).contains (cell g cube).upper = true →
          (cell g cube).contains (vertex cube) = true)) := by
  let F := field e g c.regularization c.clip
  obtain ⟨vertex, hvertex⟩ := F.exists_vertex 0
  have hleaks : F.leaks = false :=
    LatticeField.leaks_eq_false_of_clearBelow fun p hp _ hb => hborder p hp hb
  have hshows := LatticeField.showsCrossings_facetsBelow hborder hvertex
  refine ⟨vertex, _, hvertex, hshows, fun rows => ?_, ?_, fun hclip cube hmixed => ?_⟩
  · rw [sweep_eq_surface, LatticeField.surface, if_neg (Bool.eq_false_iff.mp hleaks)]
  · rw [dualContourUsing_eq hcheck hgrid, if_neg (Bool.eq_false_iff.mp hleaks)]
    rfl
  · have hincludes : (cell g cube).Includes (vertex cube) := by
      have hv := hvertex cube hmixed
      simp only [F, hclip] at hv
      exact includes_vertex? hv
    exact ⟨hincludes, hincludes.contains⟩

end Surface

/-- Three points inside, two of them next to each other, leave sixteen edges crossed. -/
theorem dualContour_showsCrossings_touching :
    ∃ (g : Grid Fraction) (vertex : LatticePoint → Point Fraction)
      (facets : List (Facet (Point Fraction))), facets.length = 32 ∧
        sweep (field touching g 0 true) 2 = .ok facets.toArray ∧
        (cell g ⟨0, 0, 0⟩).contains (vertex ⟨0, 0, 0⟩) = true := by
  let g : Grid Fraction := ⟨⟨4, 4, 4⟩, ⟨-1, -1, -1⟩, 1⟩
  have hgrid : Grid.ofBounds touching.solid.bounds 1 = .ok g := by with_unfolding_all rfl
  have hborder : ∀ p ∈ LatticePoint.allBelow g.dimensions, p.isBorder g.dimensions = true →
      touching.solid.contains (g.position p) = false := by decide +kernel
  have hcount : (crossedEdges g.dimensions
      fun p => touching.solid.contains (g.position p)).length = 16 := by decide +kernel
  have hmixed : touching.solid.contains (g.position ⟨0, 0, 0⟩) = false ∧
      touching.solid.contains (g.position ⟨1, 1, 1⟩) = true := by decide +kernel
  obtain ⟨vertex, facets, -, hshows, hsweep, -, hclip⟩ :=
    dualContour_showsCrossings (κ := Fraction) (e := touching) (c := ⟨1, 0, 0, true, 0, .standard⟩)
      (by decide +kernel) hgrid fun p hp => hborder p (LatticePoint.mem_allBelow.mpr hp)
  refine ⟨g, vertex, facets, by rw [hshows.length_eq, hcount], hsweep 2, ?_⟩
  have hcell := Box.spanning_contains_corners (g.position ⟨0, 0, 0⟩) (g.position ⟨1, 1, 1⟩)
  exact (hclip rfl ⟨0, 0, 0⟩ ⟨7, by decide, 0, by decide, hmixed.2, hmixed.1⟩).2 hcell.1 hcell.2

end SolidSurface
