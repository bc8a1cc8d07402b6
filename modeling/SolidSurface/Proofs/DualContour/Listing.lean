import SolidSurface.Proofs.Lattice.Border

/-! # The surface, said of the whole lattice

What a sweep has to find does not mention windows or slots: a crossing belongs to an edge, a vertex
to a cube, and the triangles are listed layer by layer, along x, y and z in each layer.
-/

namespace SolidSurface.DualContour

variable {γ ν : Type}

/-! ## The cubes around an edge -/

/-- The far end of `q` on the face across an axis; the edge that starts there along the axis is
shared by four cubes, of which `q` is the least. -/
def across (q : LatticePoint) : Axis → LatticePoint
  | .x => stepForward (stepForward q .y) .z
  | .y => stepForward (stepForward q .x) .z
  | .z => stepForward (stepForward q .x) .y

/-- The four cubes around the edge at `across q a`, in the order of `cubesAround`. -/
def cubeRing (q : LatticePoint) : Axis → List LatticePoint
  | .x => [q, stepForward q .y, across q .x, stepForward q .z]
  | .y => [q, stepForward q .z, across q .y, stepForward q .x]
  | .z => [q, stepForward q .x, across q .z, stepForward q .y]

theorem cubesAround_across (q : LatticePoint) (a : Axis) :
    cubesAround (across q a) a = (cubeRing q a).map some := by
  cases a <;> rfl

theorem exists_eq_across {low : LatticePoint} {a : Axis} (h : ∀ b, b ≠ a → 0 < low.get b) :
    ∃ q, low = across q a := by
  obtain ⟨x, y, z⟩ := low
  cases a with
  | x =>
      have hy : 0 < y := h .y (by decide)
      have hz : 0 < z := h .z (by decide)
      refine ⟨⟨x, y - 1, z - 1⟩, ?_⟩
      simp only [across, stepForward, Nat.sub_add_cancel hy, Nat.sub_add_cancel hz]
  | y =>
      have hx : 0 < x := h .x (by decide)
      have hz : 0 < z := h .z (by decide)
      refine ⟨⟨x - 1, y, z - 1⟩, ?_⟩
      simp only [across, stepForward, Nat.sub_add_cancel hx, Nat.sub_add_cancel hz]
  | z =>
      have hx : 0 < x := h .x (by decide)
      have hy : 0 < y := h .y (by decide)
      refine ⟨⟨x - 1, y - 1, z⟩, ?_⟩
      simp only [across, stepForward, Nat.sub_add_cancel hx, Nat.sub_add_cancel hy]

/-- An edge belongs to every cube around it. -/
theorem mem_cubeEdges_of_mem_cubeRing {q c : LatticePoint} {a : Axis} (hc : c ∈ cubeRing q a) :
    (a, across q a) ∈ cubeEdges c := by
  cases a <;> simp only [cubeRing, List.mem_cons, List.not_mem_nil, or_false] at hc <;>
    rcases hc with rfl | rfl | rfl | rfl <;> simp [cubeEdges, across, stepForward]

/-! ## The edges of a layer -/

/-- Number of rows of edges along an axis in one layer. -/
def edgeHeight (n : Vec3 Nat) : Axis → Nat
  | .x => n.y
  | .y => n.y - 1
  | .z => n.y

/-- The lower ends of the edges along an axis that start in layer `k`. -/
def layerEdges (n : Vec3 Nat) (a : Axis) (k : Nat) : List LatticePoint :=
  (List.range (edgeWidth n a * edgeHeight n a)).map (pointAt (edgeWidth n a) k)

theorem mem_layerEdges {n : Vec3 Nat} {a : Axis} {k : Nat} {low : LatticePoint} :
    low ∈ layerEdges n a k ↔ low.x < edgeWidth n a ∧ low.y < edgeHeight n a ∧ low.z = k := by
  simp only [layerEdges, List.mem_map, List.mem_range]
  constructor
  · rintro ⟨i, hi, rfl⟩
    obtain ⟨hx, hy⟩ := LatticePoint.pointAt_lt hi
    exact ⟨hx, hy, rfl⟩
  · rintro ⟨hx, hy, rfl⟩
    exact ⟨_, LatticePoint.index_lt hx hy, LatticePoint.pointAt_index hx⟩

/-- Both ends of an edge lie in the lattice, as long as there is a layer for its upper end. -/
theorem stepForward_below_of_mem_layerEdges {n : Vec3 Nat} {a : Axis} {k : Nat}
    {low : LatticePoint} (h : low ∈ layerEdges n a k) (hk : k < n.z) (hz : a = .z → k + 1 < n.z) :
    (stepForward low a).Below n := by
  rw [mem_layerEdges] at h
  obtain ⟨hx, hy, rfl⟩ := h
  cases a with
  | x =>
      simp only [edgeWidth, edgeHeight] at hx hy
      exact ⟨Nat.add_lt_of_lt_sub hx, hy, hk⟩
  | y =>
      simp only [edgeWidth, edgeHeight] at hx hy
      exact ⟨hx, Nat.add_lt_of_lt_sub hy, hk⟩
  | z => exact ⟨hx, hy, hz rfl⟩

/-! ## What there is to find -/

/-- The two triangles that fill a ring of four vertices. -/
def ringFacets : List ν → List (Facet ν)
  | [a, b, c, d] => [(a, b, c), (a, c, d)]
  | _ => []

namespace LatticeField

variable (F : LatticeField γ ν)

/-- Whether a sample on the border is inside. -/
def leaks : Bool :=
  LatticePoint.anyBelow F.dimensions fun p => F.inside p && p.isBorder F.dimensions

/-- The crossing on an edge whose ends answer differently. -/
def crossing? (a : Axis) (low : LatticePoint) : Option γ :=
  if F.inside low == F.inside (stepForward low a) then none
  else some (F.crossing a low (F.inside low))

def cubeCrossings (c : LatticePoint) : List γ :=
  (cubeEdges c).filterMap fun (a, low) => F.crossing? a low

def vertex? (c : LatticePoint) : Option ν :=
  match F.cubeCrossings c with
  | [] => none
  | first :: rest => some (F.vertex c first rest)

/-- The triangles of an edge, with their front on the outside. -/
def facets (a : Axis) (low : LatticePoint) : List (Facet ν) :=
  match F.crossing? a low, (cubesAround low a).mapM (·.bind F.vertex?) with
  | some _, some ring => ringFacets (if F.inside low then ring else ring.reverse)
  | _, _ => []

def layerFacets (k : Nat) : List (Facet ν) :=
  Axis.all.flatMap fun a => (layerEdges F.dimensions a k).flatMap (F.facets a)

/-- The triangles of the first `m` layers. -/
def facetsBelow (m : Nat) : List (Facet ν) :=
  (List.range m).flatMap F.layerFacets

/-- All triangles, unless a sample on the border is inside. -/
def surface : Except Fault (Array (Facet ν)) :=
  if F.leaks then .error .insideOnBorder
  else .ok (F.facetsBelow (F.dimensions.z - 1)).toArray

variable {F}

theorem crossing?_eq_none {a : Axis} {low : LatticePoint}
    (h : F.inside low = F.inside (stepForward low a)) : F.crossing? a low = none := by
  rw [crossing?, if_pos (beq_iff_eq.mpr h)]

theorem facets_eq_nil {a : Axis} {low : LatticePoint} (h : F.crossing? a low = none) :
    F.facets a low = [] := by
  rw [facets, h]

/-- A cube with a crossed edge has a vertex. -/
theorem isSome_vertex? {c low : LatticePoint} {a : Axis} (hmem : (a, low) ∈ cubeEdges c)
    (hcross : F.crossing? a low ≠ none) : (F.vertex? c).isSome = true := by
  obtain ⟨g, hg⟩ := Option.ne_none_iff_exists'.mp hcross
  have hin : g ∈ F.cubeCrossings c := List.mem_filterMap.mpr ⟨(a, low), hmem, hg⟩
  rw [vertex?]
  cases hc : F.cubeCrossings c with
  | nil =>
      rw [hc] at hin
      cases hin
  | cons first rest => rfl

theorem exists_cubeRing_eq (q : LatticePoint) (a : Axis) :
    ∃ c₁ c₂ c₃ c₄, cubeRing q a = [c₁, c₂, c₃, c₄] := by
  cases a <;> exact ⟨_, _, _, _, rfl⟩

/-- All cubes around a crossed edge have vertices. -/
theorem exists_vertices_of_crossed {q c₁ c₂ c₃ c₄ : LatticePoint} {a : Axis}
    (hcross : F.crossing? a (across q a) ≠ none) (hring : cubeRing q a = [c₁, c₂, c₃, c₄]) :
    ∃ v₁ v₂ v₃ v₄, F.vertex? c₁ = some v₁ ∧ F.vertex? c₂ = some v₂ ∧ F.vertex? c₃ = some v₃ ∧
      F.vertex? c₄ = some v₄ ∧
      (cubesAround (across q a) a).mapM (·.bind F.vertex?) = some [v₁, v₂, v₃, v₄] := by
  have hvertex : ∀ c ∈ cubeRing q a, ∃ v, F.vertex? c = some v := fun c hc =>
    Option.isSome_iff_exists.mp (isSome_vertex? (mem_cubeEdges_of_mem_cubeRing hc) hcross)
  rw [hring] at hvertex
  obtain ⟨v₁, h₁⟩ := hvertex c₁ (by simp)
  obtain ⟨v₂, h₂⟩ := hvertex c₂ (by simp)
  obtain ⟨v₃, h₃⟩ := hvertex c₃ (by simp)
  obtain ⟨v₄, h₄⟩ := hvertex c₄ (by simp)
  refine ⟨v₁, v₂, v₃, v₄, h₁, h₂, h₃, h₄, ?_⟩
  rw [cubesAround_across, hring]
  simp [h₁, h₂, h₃, h₄]

/-! ## Away from the border -/

/-- No sample on the border is inside as far as the first `m` layers go. -/
def ClearBelow (F : LatticeField γ ν) (m : Nat) : Prop :=
  ∀ p : LatticePoint, p.Below F.dimensions → p.z < m → p.isBorder F.dimensions = true →
    F.inside p = false

theorem leaks_eq_false_of_clearBelow (h : F.ClearBelow F.dimensions.z) : F.leaks = false := by
  rw [leaks, ← Bool.not_eq_true, LatticePoint.anyBelow_eq_true_iff]
  rintro ⟨p, hp, hleak⟩
  rw [Bool.and_eq_true] at hleak
  rw [h p hp hp.2.2 hleak.2] at hleak
  exact absurd hleak.1 (by decide)

theorem clearBelow_of_leaks_eq_false (h : F.leaks = false) (m : Nat) : F.ClearBelow m :=
  fun _ hp _ hborder => LatticePoint.inside_eq_false_of_isBorder h hp hborder

/-- A crossed edge keeps off the border across its axis. -/
theorem get_of_crossing?_ne_none {m : Nat} (hclear : F.ClearBelow m) {a : Axis}
    {low : LatticePoint} (hbelow : (stepForward low a).Below F.dimensions)
    (hm : (stepForward low a).z < m) (hcross : F.crossing? a low ≠ none) {b : Axis} (hb : b ≠ a) :
    0 < low.get b ∧ low.get b + 1 < F.dimensions.get b := by
  have hlow : low.z < m := by
    cases a
    · exact hm
    · exact hm
    · exact Nat.lt_of_succ_lt hm
  have hboth : ¬(low.get b = 0 ∨ low.get b + 1 = F.dimensions.get b) := by
    intro hend
    apply hcross
    apply crossing?_eq_none
    rw [hclear low hbelow.of_stepForward hlow (LatticePoint.isBorder_of_get b hend)]
    rw [← LatticePoint.get_stepForward_of_ne low hb] at hend
    rw [hclear _ hbelow hm (LatticePoint.isBorder_of_get b hend)]
  have hlt := LatticePoint.below_iff_forall_get.mp hbelow.of_stepForward b
  omega

/-- A crossed edge away from the border has triangles. -/
theorem facets_ne_nil (hleaks : F.leaks = false) {a : Axis} {low : LatticePoint}
    (hbelow : (stepForward low a).Below F.dimensions) (hcross : F.crossing? a low ≠ none) :
    F.facets a low ≠ [] := by
  have hclear := clearBelow_of_leaks_eq_false hleaks F.dimensions.z
  obtain ⟨q, rfl⟩ := exists_eq_across fun b hb =>
    (get_of_crossing?_ne_none hclear hbelow hbelow.2.2 hcross hb).1
  obtain ⟨c₁, c₂, c₃, c₄, hring⟩ := exists_cubeRing_eq q a
  obtain ⟨v₁, v₂, v₃, v₄, -, -, -, -, hfound⟩ := exists_vertices_of_crossed hcross hring
  obtain ⟨g, hg⟩ := Option.ne_none_iff_exists'.mp hcross
  rw [facets, hg, hfound]
  cases F.inside (across q a) <;> simp [ringFacets]

/-- There are no triangles when nothing is inside, and only then. -/
theorem facetsBelow_eq_nil_iff (hleaks : F.leaks = false) :
    F.facetsBelow (F.dimensions.z - 1) = [] ↔
      ∀ p : LatticePoint, p.Below F.dimensions → F.inside p = false := by
  have hborder : ∀ p : LatticePoint, p.Below F.dimensions → p.isBorder F.dimensions = true →
      F.inside p = false := fun p => LatticePoint.inside_eq_false_of_isBorder hleaks
  simp only [facetsBelow, layerFacets, List.flatMap_eq_nil_iff, List.mem_range]
  constructor
  · intro hnone p hp
    rw [← Bool.not_eq_true]
    intro hin
    obtain ⟨q, hq, hqin, hnext, hout⟩ := LatticePoint.exists_crossed hborder .x hp hin
    have hz := (LatticePoint.get_of_inside hborder hq hqin .z).2
    refine facets_ne_nil hleaks hnext ?_ (hnone q.z (Nat.lt_sub_of_add_lt hz) .x (by simp [Axis.all])
      q (mem_layerEdges.mpr ⟨Nat.lt_sub_of_add_lt hnext.1, hq.2.1, rfl⟩))
    rw [crossing?, hqin, hout]
    exact Option.some_ne_none _
  · intro hnone k hk a _ low hlow
    have hnext := stepForward_below_of_mem_layerEdges hlow (by omega) fun _ => by omega
    apply facets_eq_nil
    apply crossing?_eq_none
    rw [hnone low hnext.of_stepForward, hnone _ hnext]

end LatticeField

end SolidSurface.DualContour
