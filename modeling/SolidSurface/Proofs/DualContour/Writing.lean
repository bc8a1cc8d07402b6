import Mathlib.Tactic.SplitIfs
import Mathlib.Tactic.ByContra
import SolidSurface.Proofs.DualContour.Filling

/-! # Writing out a window

A window writes out the edges of the layers that no window before it could, but for its last layer.
Along x and y the first resident layer is passed over: either the window before has written it out
or it is the border of the lattice, where nothing is crossed.
-/

namespace SolidSurface.DualContour

variable {γ ν β δ ε : Type}

/-! ## Collecting results -/

theorem exists_mapM_eq_ok {l : List δ} {f : δ → Except ε β} {r : β → γ} {g : δ → γ}
    (h : ∀ x ∈ l, ∃ y, f x = .ok y ∧ r y = g x) :
    ∃ ys, l.mapM f = .ok ys ∧ ys.map r = l.map g := by
  induction l with
  | nil => exact ⟨[], rfl, rfl⟩
  | cons x l ih =>
      obtain ⟨y, hy, hr⟩ := h x List.mem_cons_self
      obtain ⟨ys, hys, hrs⟩ := ih fun z hz => h z (List.mem_cons_of_mem _ hz)
      refine ⟨y :: ys, ?_, ?_⟩
      · simp [List.mapM_cons, hy, hys, bind, Except.bind, pure, Except.pure]
      · rw [List.map_cons, List.map_cons, hr, hrs]

theorem exists_mapM_eq_some {l : List δ} {f : δ → Except ε β} {g : δ → Option β}
    (h : ∀ x ∈ l, ∃ y, f x = .ok y ∧ g x = some y) :
    ∃ ys, l.mapM f = .ok ys ∧ l.mapM g = some ys := by
  induction l with
  | nil => exact ⟨[], rfl, rfl⟩
  | cons x l ih =>
      obtain ⟨y, hy, hg⟩ := h x List.mem_cons_self
      obtain ⟨ys, hys, hgs⟩ := ih fun z hz => h z (List.mem_cons_of_mem _ hz)
      refine ⟨y :: ys, ?_, ?_⟩
      · simp [List.mapM_cons, hy, hys, bind, Except.bind, pure, Except.pure]
      · simp [List.mapM_cons, hg, hgs]

theorem range'_append_range' {a b c : Nat} (hab : a ≤ b) (hbc : b ≤ c) :
    List.range' a (b - a) ++ List.range' b (c - b) = List.range' a (c - a) := by
  have happend := List.range'_append_1 (s := a) (m := b - a) (n := c - b)
  rwa [show a + (b - a) = b by omega, show b - a + (c - b) = c - a by omega] at happend

/-! ## Progress of a sweep -/

/-- Layer `k` when the windows before have ended at layer `seen`. -/
def Progress.swept (seen k : Nat) : Progress where
  corners := decide (k < seen)
  flat := if k + 1 < seen then .written else if k < seen then .found else .unknown
  upright := if k + 1 < seen then .written else .unknown
  cubes := decide (k + 1 < seen)

/-- Layer `k` when the window after those has been filled, which ends at layer `stop`. -/
def Progress.filled (seen stop k : Nat) : Progress where
  corners := true
  flat := if k + 1 < seen then .written else .found
  upright := if k + 1 < seen then .written else if k + 1 < stop then .found else .unknown
  cubes := decide (k + 1 < stop)

/-- A sweep has come to window `w` after windows that ended at layer `seen`. -/
structure Reached (nz seen : Nat) (w : Window) : Prop where
  spans : w.Spans nz
  start_eq : w.start = seen - 2
  seen_le_stop : seen ≤ w.stop
  first_or_later : seen = 0 ∨ 2 ≤ seen

variable {F : LatticeField γ ν} {w : Window} {slots : Slots γ ν} {seen : Nat}

/-! ## One edge -/

section Filled

variable (hw : Reached F.dimensions.z seen w) (hclear : F.ClearBelow w.stop)
  (h : Resident w slots fun k => F.layerAt (.filled seen w.stop k) k)

include hw hclear in
/-- A crossed edge of the window keeps off the border across its axis. -/
theorem get_of_crossed {a : Axis} {low : LatticePoint} (hcross : F.crossing? a low ≠ none)
    (hmem : low ∈ layerEdges F.dimensions a low.z) (hk : low.z < w.stop)
    (hz : a = .z → low.z + 1 < w.stop) {b : Axis} (hb : b ≠ a) :
    0 < low.get b ∧ low.get b + 1 < F.dimensions.get b := by
  have hstop := hw.spans.stop_le
  have hbelow := stepForward_below_of_mem_layerEdges hmem (Nat.lt_of_lt_of_le hk hstop)
    fun ha => Nat.lt_of_lt_of_le (hz ha) hstop
  have hhigh : (stepForward low a).z < w.stop := by
    cases a
    · exact hk
    · exact hk
    · exact hz rfl
  exact LatticeField.get_of_crossing?_ne_none hclear hbelow hhigh hcross hb

include h in
theorem cubeVertex_eq {c : LatticePoint} {v : ν} (hx : c.x + 1 < F.dimensions.x)
    (hy : c.y + 1 < F.dimensions.y) (hk : w.Holds c.z) (hnext : c.z + 1 < w.stop)
    (hv : F.vertex? c = some v) : cubeVertex F.dimensions w slots (some c) = .ok v := by
  have hcube : (F.layerAt (.filled seen w.stop c.z) c.z).cubes[c.x + (F.dimensions.x - 1) * c.y]? =
      some (.vertex v) := by
    simp only [LatticeField.layerAt]
    rw [getElem?_plane (Nat.lt_sub_of_add_lt hx) (Nat.lt_sub_of_add_lt hy)]
    simp only [Progress.filled, decide_eq_true hnext, LatticeField.cubeRecord, hv]
  simp only [cubeVertex, if_pos (And.intro hx hy), readAt_eq_ok (h.getElem?_slot c.z hk),
    readAt_eq_ok hcube, Except.mapError, bind, Except.bind]

include hw hclear h

/-- A crossed edge finds the vertices of the cubes around it. -/
theorem exists_cubeVertex_eq {a : Axis} {q : LatticePoint}
    (hcross : F.crossing? a (across q a) ≠ none)
    (hmem : across q a ∈ layerEdges F.dimensions a (across q a).z)
    (hstart : a ≠ .z → w.start < (across q a).z) (hk : w.Holds (across q a).z)
    (hnext : (across q a).z + 1 < w.stop) {c : LatticePoint} (hc : c ∈ cubeRing q a) :
    ∃ v, cubeVertex F.dimensions w slots (some c) = .ok v ∧ F.vertex? c = some v := by
  obtain ⟨v, hv⟩ := Option.isSome_iff_exists.mp
    (LatticeField.isSome_vertex? (mem_cubeEdges_of_mem_cubeRing hc) hcross)
  have hplace : (c.x + 1 < F.dimensions.x ∧ c.y + 1 < F.dimensions.y) ∧
      w.start ≤ c.z ∧ c.z + 1 < w.stop := by
    have hx := get_of_crossed hw hclear hcross hmem hk.2 (fun _ => hnext) (b := .x)
    have hy := get_of_crossed hw hclear hcross hmem hk.2 (fun _ => hnext) (b := .y)
    obtain ⟨hwidth, hheight, -⟩ := mem_layerEdges.mp hmem
    simp only [Window.Holds] at hk
    cases a <;> simp only [cubeRing, List.mem_cons, List.not_mem_nil, or_false] at hc <;>
      rcases hc with rfl | rfl | rfl | rfl <;>
      simp [across, stepForward, Vec3.get, edgeWidth, edgeHeight]
        at hx hy hwidth hheight hstart hk hnext ⊢ <;> omega
  exact ⟨v, cubeVertex_eq h hplace.1.1 hplace.1.2 ⟨hplace.2.1, Nat.lt_of_succ_lt hplace.2.2⟩
    hplace.2.2 hv, hv⟩

theorem edgeFacets_eq {a : Axis} {low : LatticePoint} {g : γ} (hg : F.crossing? a low = some g)
    (hmem : low ∈ layerEdges F.dimensions a low.z) (hstart : a ≠ .z → w.start < low.z)
    (hk : w.Holds low.z) (hnext : low.z + 1 < w.stop) :
    edgeFacets F.dimensions w slots a low (F.inside low) = .ok (F.facets a low) := by
  have hcross : F.crossing? a low ≠ none := by
    rw [hg]
    exact Option.some_ne_none g
  obtain ⟨q, rfl⟩ := exists_eq_across fun b hb =>
    (get_of_crossed hw hclear hcross hmem hk.2 (fun _ => hnext) hb).1
  have hring : ∀ c ∈ cubesAround (across q a) a, ∃ v,
      cubeVertex F.dimensions w slots c = .ok v ∧ c.bind F.vertex? = some v := by
    rw [cubesAround_across]
    intro c' hc'
    obtain ⟨c, hc, rfl⟩ := List.mem_map.mp hc'
    exact exists_cubeVertex_eq hw hclear h hcross hmem hstart hk hnext hc
  obtain ⟨vs, hvs, hsome⟩ := exists_mapM_eq_some hring
  simp only [edgeFacets, hvs, bind, Except.bind, LatticeField.facets, hg, hsome, ringFacets]
  generalize (if F.inside (across q a) = true then vs else vs.reverse) = ring
  rcases ring with _ | ⟨v₁, _ | ⟨v₂, _ | ⟨v₃, _ | ⟨v₄, _ | ⟨v₅, rest⟩⟩⟩⟩⟩ <;> rfl

/-! ## One layer -/

omit hw hclear in
/-- Each edge of a layer gives the triangles that its record asks for. -/
theorem exists_layerFacets_eq_ok {a : Axis} {k : Nat} (hk : w.Holds k)
    {g : LatticePoint → List (Facet ν)} (hg : ∀ low ∈ layerEdges F.dimensions a k,
      (match F.edgeRecord ((Progress.filled seen w.stop k).edges a) a low with
        | .crossed _ lowInside false => edgeFacets F.dimensions w slots a low lowInside
        | _ => .ok []) = .ok (g low)) :
    ∃ ls, layerFacets F.dimensions w slots k a = .ok ls ∧
      ls.flatten = (layerEdges F.dimensions a k).flatMap g := by
  simp only [layerFacets, readAt_eq_ok (h.getElem?_slot k hk), Except.mapError, bind, Except.bind,
    LatticeField.edges_layerAt, zipIdx_toList_plane, List.mapM_map]
  refine ⟨_, mapM_eq_ok fun i hi => hg _ (List.mem_map_of_mem hi), ?_⟩
  rw [layerEdges, List.flatMap_map, List.flatMap]

theorem exists_layerFacets_of_found {a : Axis} {k : Nat} (hk : w.Holds k)
    (hfound : (Progress.filled seen w.stop k).edges a = .found) (hstart : a ≠ .z → w.start < k)
    (hnext : k + 1 < w.stop) :
    ∃ ls, layerFacets F.dimensions w slots k a = .ok ls ∧
      ls.flatten = (layerEdges F.dimensions a k).flatMap (F.facets a) := by
  refine exists_layerFacets_eq_ok h hk fun low hmem => ?_
  obtain ⟨-, -, rfl⟩ := mem_layerEdges.mp hmem
  rw [hfound]
  cases hg : F.crossing? a low with
  | none => simp only [LatticeField.edgeRecord, hg, LatticeField.facets_eq_nil hg]
  | some g =>
      simp only [LatticeField.edgeRecord, hg]
      exact edgeFacets_eq hw hclear h hg hmem hstart hk hnext

omit hw hclear in
theorem exists_layerFacets_of_ne_found {a : Axis} {k : Nat} (hk : w.Holds k)
    (hfound : (Progress.filled seen w.stop k).edges a ≠ .found) :
    ∃ ls, layerFacets F.dimensions w slots k a = .ok ls ∧ ls.flatten = [] := by
  obtain ⟨ls, hls, heq⟩ := exists_layerFacets_eq_ok (g := fun _ => []) h hk (a := a) fun low _ => by
    cases hs : (Progress.filled seen w.stop k).edges a with
    | unknown => simp only [LatticeField.edgeRecord]
    | found => exact absurd hs hfound
    | written => cases hg : F.crossing? a low <;> simp [LatticeField.edgeRecord, hg]
  exact ⟨ls, hls, by rw [heq]; simp⟩

omit h in
/-- Nothing is crossed along x and y in the first layer. -/
theorem crossing?_eq_none_of_first {a : Axis} {low : LatticePoint} (ha : a ≠ .z)
    (hmem : low ∈ layerEdges F.dimensions a 0) (hstop : 0 < w.stop) :
    F.crossing? a low = none := by
  have hz : low.z = 0 := (mem_layerEdges.mp hmem).2.2
  by_contra hcross
  rw [← hz] at hmem hstop
  have hgap := get_of_crossed hw hclear hcross hmem hstop (fun h => absurd h ha) ha.symm
  exact absurd hgap.1 (by simp [Vec3.get, hz])

omit hclear h in
/-- A resident layer passed over along an axis has been written out before, or is the first. -/
theorem first_of_not_ready {a : Axis} {k : Nat} (hk : w.Holds k) (hnew : seen ≤ k + 1)
    (hnext : k + 1 < w.stop) (hready : ready w k a = false) : a ≠ .z ∧ k = 0 := by
  have hstart := hw.start_eq
  have hfirst := hw.first_or_later
  have hle := hk.1
  cases a <;> simp only [ready, Bool.and_eq_false_iff, decide_eq_false_iff_not] at hready
  · exact ⟨by decide, by omega⟩
  · exact ⟨by decide, by omega⟩
  · omega

theorem exists_axisFacets {k : Nat} (hk : w.Holds k) (a : Axis) :
    ∃ ls, (if ready w k a then layerFacets F.dimensions w slots k a else .ok []) = .ok ls ∧
      ls.flatten = if seen ≤ k + 1 ∧ k + 1 < w.stop then
        (layerEdges F.dimensions a k).flatMap (F.facets a) else [] := by
  have hstart := hw.start_eq
  have hle := hw.seen_le_stop
  have hstop := hk.2
  by_cases hnew : seen ≤ k + 1 ∧ k + 1 < w.stop
  · rw [if_pos hnew]
    cases hready : ready w k a with
    | false =>
        obtain ⟨ha, rfl⟩ := first_of_not_ready hw hk hnew.1 hnew.2 hready
        refine ⟨[], rfl, ?_⟩
        symm
        rw [List.flatten_nil, List.flatMap_eq_nil_iff]
        intro low hmem
        exact LatticeField.facets_eq_nil
          (crossing?_eq_none_of_first hw hclear ha hmem (Nat.zero_lt_of_lt hk.2))
    | true =>
        apply exists_layerFacets_of_found hw hclear h hk _ _ hnew.2
        · cases a <;> simp [Progress.edges, Progress.filled, hnew.2, Nat.not_lt.mpr hnew.1]
        · intro ha
          cases a <;> simp [ready] at hready ha <;> exact hready.1
  · rw [if_neg hnew]
    cases hready : ready w k a with
    | false => exact ⟨[], rfl, rfl⟩
    | true =>
        apply exists_layerFacets_of_ne_found h hk
        cases a <;> simp only [ready, Bool.and_eq_true, decide_eq_true_eq] at hready <;>
          simp only [Progress.edges, Progress.filled] <;> split_ifs <;> simp <;> omega

/-! ## One window -/

theorem exists_layerFacets {k : Nat} (hk : w.Holds k) :
    ∃ ls, (Axis.all.mapM fun a =>
        if ready w k a then layerFacets F.dimensions w slots k a else .ok []) = .ok ls ∧
      ls.flatten.flatten = if seen ≤ k + 1 ∧ k + 1 < w.stop then F.layerFacets k else [] := by
  obtain ⟨ls, hls, heq⟩ := exists_mapM_eq_ok fun a (_ : a ∈ Axis.all) =>
    exists_axisFacets hw hclear h hk a
  refine ⟨ls, hls, ?_⟩
  rw [List.flatten_flatten, heq]
  split
  · rfl
  · simp

theorem windowFacets_eq : windowFacets F.dimensions w slots = .ok (w.layers.flatMap fun k =>
    if seen ≤ k + 1 ∧ k + 1 < w.stop then F.layerFacets k else []) := by
  obtain ⟨ls, hls, heq⟩ := exists_mapM_eq_ok fun k (hk : k ∈ w.layers) =>
    exists_layerFacets hw hclear h (Window.mem_layers.mp hk)
  simp only [windowFacets, hls, bind, Except.bind, pure, Except.pure]
  rw [List.flatMap, ← heq]
  simp only [List.flatten_flatten, List.map_map, Function.comp_def]

omit hclear h in
/-- A window takes up the list where the windows before it have left it. -/
theorem facetsBelow_append :
    F.facetsBelow (seen - 1) ++ (w.layers.flatMap fun k =>
      if seen ≤ k + 1 ∧ k + 1 < w.stop then F.layerFacets k else []) =
    F.facetsBelow (w.stop - 1) := by
  have hstart := hw.start_eq
  have hle := hw.seen_le_stop
  have hlayers : w.layers = List.range' w.start (seen - 1 - w.start) ++
      (List.range' (seen - 1) (w.stop - 1 - (seen - 1)) ++
        List.range' (w.stop - 1) (w.stop - (w.stop - 1))) := by
    rw [range'_append_range' (by omega) (by omega), range'_append_range' (by omega) (by omega),
      Window.layers]
  have hold : ∀ k ∈ List.range' w.start (seen - 1 - w.start),
      (if seen ≤ k + 1 ∧ k + 1 < w.stop then F.layerFacets k else []) = [] := by
    intro k hk
    rw [List.mem_range'_1] at hk
    exact if_neg (by omega)
  have hlast : ∀ k ∈ List.range' (w.stop - 1) (w.stop - (w.stop - 1)),
      (if seen ≤ k + 1 ∧ k + 1 < w.stop then F.layerFacets k else []) = [] := by
    intro k hk
    rw [List.mem_range'_1] at hk
    exact if_neg (by omega)
  have hnew : ∀ k ∈ List.range' (seen - 1) (w.stop - 1 - (seen - 1)),
      (if seen ≤ k + 1 ∧ k + 1 < w.stop then F.layerFacets k else []) = F.layerFacets k := by
    intro k hk
    rw [List.mem_range'_1] at hk
    exact if_pos (by omega)
  rw [hlayers, List.flatMap_append, List.flatMap_append, List.flatMap_eq_nil_iff.mpr hold,
    List.flatMap_eq_nil_iff.mpr hlast, List.flatMap_congr hnew, List.nil_append, List.append_nil,
    LatticeField.facetsBelow, LatticeField.facetsBelow, ← List.flatMap_append,
    List.range_eq_range', List.range_eq_range']
  have hsplit := range'_append_range' (Nat.zero_le (seen - 1)) (Nat.sub_le_sub_right hle 1)
  rw [Nat.sub_zero, Nat.sub_zero] at hsplit
  rw [hsplit]

omit h in
/-- An edge that has been written out is marked; one that was passed over needs no mark. -/
theorem markWritten_plane {k : Nat} (hk : w.Holds k) (a : Axis) :
    (if ready w k a then
        (plane (edgeWidth F.dimensions a) (edgeHeight F.dimensions a) k
          (F.edgeRecord ((Progress.filled seen w.stop k).edges a) a)).map EdgeRecord.markWritten
      else plane (edgeWidth F.dimensions a) (edgeHeight F.dimensions a) k
        (F.edgeRecord ((Progress.filled seen w.stop k).edges a) a)) =
    plane (edgeWidth F.dimensions a) (edgeHeight F.dimensions a) k
      (F.edgeRecord ((Progress.swept w.stop k).edges a) a) := by
  have hstart := hw.start_eq
  have hle := hw.seen_le_stop
  have hstop := hk.2
  cases hready : ready w k a with
  | true =>
      rw [if_pos rfl, map_plane]
      simp only [LatticeField.markWritten_edgeRecord]
      congr 2
      cases a <;> simp only [ready, Bool.and_eq_true, decide_eq_true_eq] at hready <;>
        simp only [Progress.edges, Progress.filled, Progress.swept] <;> split_ifs <;>
        first | rfl | omega
  | false =>
      rw [if_neg Bool.false_ne_true]
      by_cases hnew : seen ≤ k + 1 ∧ k + 1 < w.stop
      · obtain ⟨ha, rfl⟩ := first_of_not_ready hw hk hnew.1 hnew.2 hready
        have hfilled : (Progress.filled seen w.stop 0).edges a ≠ .unknown := by
          rw [Progress.edges_of_ne_z _ ha]
          simp only [Progress.filled]
          split_ifs <;> decide
        have hswept : (Progress.swept w.stop 0).edges a ≠ .unknown := by
          rw [Progress.edges_of_ne_z _ ha]
          simp only [Progress.swept, if_pos hnew.2]
          decide
        apply plane_congr
        intro i hi
        have hnone := crossing?_eq_none_of_first hw hclear ha
          (List.mem_map_of_mem (List.mem_range.mpr hi)) (Nat.zero_lt_of_lt hk.2)
        rw [LatticeField.edgeRecord_eq_uncrossed hfilled hnone,
          LatticeField.edgeRecord_eq_uncrossed hswept hnone]
      · congr 2
        cases a <;> simp only [ready, Bool.and_eq_false_iff, decide_eq_false_iff_not] at hready <;>
          simp only [Progress.edges, Progress.filled, Progress.swept] <;> split_ifs <;>
          first | rfl | omega

theorem Resident.markWindowWritten :
    Resident w (markWindowWritten w slots) fun k => F.layerAt (.swept w.stop k) k := by
  refine (h.updateResident hw.spans.fits _).congr fun k hk => ?_
  have hmark := markWritten_plane hw hclear hk
  simp only [LatticeField.layerAt, Layer.mk.injEq]
  refine ⟨?_, hmark .x, hmark .y, hmark .z, rfl⟩
  rw [Progress.filled, Progress.swept, decide_eq_true hk.2]

end Filled

end SolidSurface.DualContour
