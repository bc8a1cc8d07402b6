import Mathlib.Data.List.Basic
import SolidSurface.Proofs.DualContour.Listing
import SolidSurface.Proofs.DualContour.Residency

/-! # Filling a window

What is stored of a layer is determined by how far the sweep has come with it: whether its corners
and cubes are known, and whether its edges are unknown, found or written out. Filling a window moves
every resident layer on, and never changes what an earlier window has found. All that it reads is in
range.
-/

namespace SolidSurface.DualContour

variable {γ ν β δ : Type}

/-! ## Planes of records -/

/-- One record for each point of layer `k`, in the order of `pointAt`. -/
def plane (width height k : Nat) (f : LatticePoint → β) : Array β :=
  Array.ofFn fun i : Fin (width * height) => f (pointAt width k i)

section Plane

variable {width height k : Nat} {f : LatticePoint → β}

theorem getElem?_plane {p : LatticePoint} (hx : p.x < width) (hy : p.y < height) :
    (plane width height p.z f)[p.x + width * p.y]? = some (f p) := by
  rw [plane, Array.getElem?_ofFn, dif_pos (LatticePoint.index_lt hx hy)]
  simp only [LatticePoint.pointAt_index hx]

theorem mapIdx_plane {g : Nat → β → δ} {f' : LatticePoint → δ}
    (h : ∀ i < width * height, g i (f (pointAt width k i)) = f' (pointAt width k i)) :
    (plane width height k f).mapIdx g = plane width height k f' := by
  apply Array.ext
  · simp [plane]
  · intro i hi hi'
    simp only [plane, Array.getElem_mapIdx, Array.getElem_ofFn]
    apply h
    simpa [plane] using hi'

theorem replaceEach_plane {ε : Type} {g : Nat → β → Except ε δ} (f' : LatticePoint → δ)
    (h : ∀ i < width * height, g i (f (pointAt width k i)) = .ok (f' (pointAt width k i))) :
    replaceEach (plane width height k f) g = .ok (plane width height k f') := by
  have heach : ∀ i b, (plane width height k f)[i]? = some b →
      g i b = .ok (f' (pointAt width k i)) := by
    intro i b hb
    rw [plane, Array.getElem?_ofFn] at hb
    obtain ⟨hi, hb⟩ := Option.dite_none_right_eq_some.mp hb
    exact Option.some.inj hb ▸ h i hi
  rw [replaceEach_eq_ok heach, mapIdx_plane fun _ _ => rfl]

theorem plane_congr {f' : LatticePoint → β}
    (h : ∀ i < width * height, f (pointAt width k i) = f' (pointAt width k i)) :
    plane width height k f = plane width height k f' := by
  simp only [plane]
  congr 1
  funext i
  exact h i i.isLt

theorem map_plane (g : β → δ) :
    (plane width height k f).map g = plane width height k fun p => g (f p) := by
  apply Array.ext
  · simp [plane]
  · intro i hi hi'
    simp [plane]

theorem replicate_eq_plane (b : β) :
    Array.replicate (width * height) b = plane width height k fun _ => b := by
  apply Array.ext
  · simp [plane]
  · intro i hi hi'
    simp [plane]

theorem zipIdx_toList_plane :
    (plane width height k f).toList.zipIdx =
      (List.range (width * height)).map fun i => (f (pointAt width k i), i) := by
  apply List.ext_getElem
  · simp [plane]
  · intro i hi hi'
    simp [plane]

end Plane

/-! ## How far a layer has come -/

inductive Stage where
  | unknown
  | found
  | written
  deriving DecidableEq

/-- What filling does to a stage. -/
def Stage.resolve : Stage → Stage
  | unknown => found
  | s => s

/-- What writing out does to a stage. -/
def Stage.write : Stage → Stage
  | found => written
  | s => s

structure Progress where
  corners : Bool
  flat : Stage
  upright : Stage
  cubes : Bool
  deriving DecidableEq

def Progress.edges (p : Progress) : Axis → Stage
  | .x | .y => p.flat
  | .z => p.upright

theorem Progress.edges_of_ne_z (p : Progress) {a : Axis} (ha : a ≠ .z) : p.edges a = p.flat := by
  cases a with
  | x => rfl
  | y => rfl
  | z => exact absurd rfl ha

namespace LatticeField

variable (F : LatticeField γ ν)

def cornerRecord (known : Bool) (p : LatticePoint) : Option Bool :=
  if known then some (F.inside p) else none

def edgeRecord (s : Stage) (a : Axis) (low : LatticePoint) : EdgeRecord γ :=
  match s, F.crossing? a low with
  | .unknown, _ => .unknown
  | _, none => .uncrossed
  | s, some g => .crossed g (F.inside low) (s == .written)

def cubeRecord (known : Bool) (c : LatticePoint) : CubeRecord ν :=
  match known, F.vertex? c with
  | false, _ => .unknown
  | true, none => .empty
  | true, some v => .vertex v

/-- What is stored of layer `k`. -/
def layerAt (p : Progress) (k : Nat) : Layer γ ν :=
  let n := F.dimensions
  { corners := plane n.x n.y k (F.cornerRecord p.corners)
    xEdges := plane (edgeWidth n .x) (edgeHeight n .x) k (F.edgeRecord p.flat .x)
    yEdges := plane (edgeWidth n .y) (edgeHeight n .y) k (F.edgeRecord p.flat .y)
    zEdges := plane (edgeWidth n .z) (edgeHeight n .z) k (F.edgeRecord p.upright .z)
    cubes := plane (n.x - 1) (n.y - 1) k (F.cubeRecord p.cubes) }

variable {F}

theorem edges_layerAt (p : Progress) (k : Nat) (a : Axis) :
    (F.layerAt p k).edges a = plane (edgeWidth F.dimensions a) (edgeHeight F.dimensions a) k
      (F.edgeRecord (p.edges a) a) := by
  cases a <;> rfl

theorem layerAt_blank (k : Nat) :
    F.layerAt ⟨false, .unknown, .unknown, false⟩ k = Layer.blank F.dimensions := by
  simp only [layerAt, Layer.blank, Layer.mk.injEq]
  refine ⟨?_, ?_, ?_, ?_, ?_⟩ <;> exact (replicate_eq_plane _).symm

theorem crossing?_edgeRecord {s : Stage} (hs : s ≠ .unknown) (a : Axis) (low : LatticePoint) :
    (F.edgeRecord s a low).crossing? = F.crossing? a low := by
  cases s with
  | unknown => exact absurd rfl hs
  | found => cases h : F.crossing? a low <;> simp [edgeRecord, h, EdgeRecord.crossing?]
  | written => cases h : F.crossing? a low <;> simp [edgeRecord, h, EdgeRecord.crossing?]

theorem edgeRecord_eq_uncrossed {s : Stage} (hs : s ≠ .unknown) {a : Axis} {low : LatticePoint}
    (h : F.crossing? a low = none) : F.edgeRecord s a low = .uncrossed := by
  cases s with
  | unknown => exact absurd rfl hs
  | found => simp only [edgeRecord, h]
  | written => simp only [edgeRecord, h]

theorem markWritten_edgeRecord (s : Stage) (a : Axis) (low : LatticePoint) :
    (F.edgeRecord s a low).markWritten = F.edgeRecord s.write a low := by
  cases s <;> cases h : F.crossing? a low <;>
    simp [edgeRecord, h, EdgeRecord.markWritten, Stage.write]

variable (F) in
/-- The corners of a layer start at the same points as its edges along z. -/
theorem any_corners_iff {p : Progress} (hp : p.corners = true) (k : Nat) :
    ((F.layerAt p k).corners.zipIdx.any fun (c, i) =>
      c == some true && (pointAt F.dimensions.x k i).isBorder F.dimensions) = true ↔
      ∃ q ∈ layerEdges F.dimensions .z k, F.inside q = true ∧ q.isBorder F.dimensions = true := by
  simp only [← Array.any_toList, Array.toList_zipIdx, layerAt, zipIdx_toList_plane, List.any_map,
    List.any_eq_true, layerEdges, List.mem_map]
  simp [cornerRecord, hp, edgeWidth, edgeHeight]

end LatticeField

/-! ## Corners -/

variable {F : LatticeField γ ν} {w : Window} {slots : Slots γ ν} {P : Nat → Progress}

theorem Resident.fillCorners (hw : w.Fits) (h : Resident w slots fun k => F.layerAt (P k) k) :
    Resident w (fillCorners F w slots) fun k => F.layerAt { P k with corners := true } k := by
  refine (h.updateResident hw _).congr fun k _ => ?_
  simp only [LatticeField.layerAt]
  rw [mapIdx_plane]
  intro i _
  cases hc : (P k).corners <;> simp [LatticeField.cornerRecord]

section KnownCorners

variable (h : Resident w slots fun k => F.layerAt (P k) k)
  (hcorners : ∀ k, w.Holds k → (P k).corners = true)

include h hcorners

theorem cornerInside_eq {p : LatticePoint} (hx : p.x < F.dimensions.x) (hy : p.y < F.dimensions.y)
    (hz : w.Holds p.z) : cornerInside F.dimensions w slots p = .ok (F.inside p) := by
  have hcorner : (F.layerAt (P p.z) p.z).corners[p.x + F.dimensions.x * p.y]? =
      some (some (F.inside p)) := by
    simp only [LatticeField.layerAt, getElem?_plane hx hy, LatticeField.cornerRecord,
      hcorners p.z hz, if_true]
  simp only [cornerInside, readAt_eq_ok (h.getElem?_slot p.z hz), readAt_eq_ok hcorner, bind,
    Except.bind, pure, Except.pure]
  cases F.inside p <;> rfl

/-- A window leaks when a sample of its layers does. -/
theorem leaks_eq_true_iff (hw : w.Fits) : leaks F.dimensions w slots = true ↔
    ∃ p : LatticePoint, p.x < F.dimensions.x ∧ p.y < F.dimensions.y ∧ w.Holds p.z ∧
      F.inside p = true ∧ p.isBorder F.dimensions = true := by
  rw [leaks, ← Array.any_toList, List.any_eq_true]
  simp only [Array.toList_zipIdx, List.mem_zipIdx_iff_getElem?, Array.getElem?_toList, Prod.exists]
  constructor
  · rintro ⟨layer, slot, hlayer, hleak⟩
    cases hk : w.layer? slot with
    | none =>
        rw [hk] at hleak
        cases hleak
    | some k =>
        obtain ⟨hslot, -⟩ := Array.getElem?_eq_some_iff.mp hlayer
        obtain ⟨hholds, hstored⟩ := h.getElem?_of_layer? hslot hk
        rw [hstored] at hlayer
        obtain rfl := Option.some.inj hlayer
        rw [hk] at hleak
        obtain ⟨p, hp, hin⟩ := (F.any_corners_iff (hcorners k hholds) k).mp hleak
        obtain ⟨hx, hy, rfl⟩ := mem_layerEdges.mp hp
        exact ⟨p, hx, hy, hholds, hin⟩
  · rintro ⟨p, hx, hy, hz, hin⟩
    refine ⟨_, _, h.getElem?_slot p.z hz, ?_⟩
    rw [Window.layer?_slot hw hz]
    exact (F.any_corners_iff (hcorners p.z hz) p.z).mpr ⟨p, mem_layerEdges.mpr ⟨hx, hy, rfl⟩, hin⟩

/-! ## Edges -/

theorem resolveEdges_plane (s : Stage) {a : Axis} {k : Nat} (hk : w.Holds k)
    (hz : a = .z → w.Holds (k + 1)) :
    resolveEdges F w slots a k (plane (edgeWidth F.dimensions a) (edgeHeight F.dimensions a) k
      (F.edgeRecord s a)) = .ok (plane (edgeWidth F.dimensions a) (edgeHeight F.dimensions a) k
      (F.edgeRecord s.resolve a)) := by
  rw [resolveEdges, replaceEach_plane _]
  intro i hi
  have hmem : pointAt (edgeWidth F.dimensions a) k i ∈ layerEdges F.dimensions a k :=
    List.mem_map.mpr ⟨i, List.mem_range.mpr hi, rfl⟩
  generalize pointAt (edgeWidth F.dimensions a) k i = low at hmem
  rw [mem_layerEdges] at hmem
  obtain ⟨hx, hy, rfl⟩ := hmem
  have hlow : cornerInside F.dimensions w slots low = .ok (F.inside low) := by
    apply cornerInside_eq h hcorners _ _ hk
    · cases a <;> simp only [edgeWidth] at hx <;> omega
    · cases a <;> simp only [edgeHeight] at hy <;> omega
  have hhigh : cornerInside F.dimensions w slots (stepForward low a) =
      .ok (F.inside (stepForward low a)) := by
    apply cornerInside_eq h hcorners
    · cases a <;> simp only [edgeWidth, stepForward] at hx ⊢ <;> omega
    · cases a <;> simp only [edgeHeight, stepForward] at hy ⊢ <;> omega
    · cases a
      · exact hk
      · exact hk
      · exact hz rfl
  cases s with
  | unknown =>
      simp only [LatticeField.edgeRecord, Stage.resolve, resolveEdge, hlow, hhigh, bind,
        Except.bind, pure, Except.pure, LatticeField.crossing?]
      split <;> simp_all
  | found => cases hc : F.crossing? a low <;> simp [LatticeField.edgeRecord, Stage.resolve, hc]
  | written => cases hc : F.crossing? a low <;> simp [LatticeField.edgeRecord, Stage.resolve, hc]

theorem Resident.fillEdges (hw : w.Fits) :
    ∃ found, fillEdges F w slots = .ok found ∧ Resident w found fun k => F.layerAt
      { P k with
        flat := (P k).flat.resolve
        upright := if k + 1 < w.stop then (P k).upright.resolve else (P k).upright } k := by
  refine h.resolveResident hw fun k hk => ?_
  simp only [LatticeField.layerAt]
  rw [resolveEdges_plane h hcorners _ hk (a := .x) (fun hz => absurd hz (by decide)),
    resolveEdges_plane h hcorners _ hk (a := .y) (fun hz => absurd hz (by decide))]
  by_cases hnext : k + 1 < w.stop
  · rw [if_pos hnext, if_pos hnext,
      resolveEdges_plane h hcorners _ hk fun _ => ⟨Nat.le_succ_of_le hk.1, hnext⟩]
    rfl
  · rw [if_neg hnext, if_neg hnext]
    rfl

end KnownCorners

/-! ## Cubes -/

section KnownEdges

variable (h : Resident w slots fun k => F.layerAt (P k) k)
  (hflat : ∀ k, w.Holds k → (P k).flat ≠ .unknown)
  (hupright : ∀ k, w.Holds k → k + 1 < w.stop → (P k).upright ≠ .unknown)

include h hflat hupright

theorem crossingAt?_eq {a : Axis} {low : LatticePoint}
    (hlow : low ∈ layerEdges F.dimensions a low.z) (hk : w.Holds low.z)
    (hz : a = .z → low.z + 1 < w.stop) :
    crossingAt? F.dimensions w slots a low = .ok (F.crossing? a low) := by
  obtain ⟨hx, hy, -⟩ := mem_layerEdges.mp hlow
  have hstage : (P low.z).edges a ≠ .unknown := by
    cases a
    · exact hflat _ hk
    · exact hflat _ hk
    · exact hupright _ hk (hz rfl)
  have hedge : ((F.layerAt (P low.z) low.z).edges a)[low.x + edgeWidth F.dimensions a * low.y]? =
      some (F.edgeRecord ((P low.z).edges a) a low) := by
    rw [LatticeField.edges_layerAt, getElem?_plane hx hy]
  simp only [crossingAt?, readAt_eq_ok (h.getElem?_slot low.z hk), readAt_eq_ok hedge, bind,
    Except.bind, pure, Except.pure, LatticeField.crossing?_edgeRecord hstage]

/-- The cubes of a layer find their crossings in that layer and the next. -/
theorem resolveCube_eq {c : LatticePoint} (hx : c.x + 1 < F.dimensions.x)
    (hy : c.y + 1 < F.dimensions.y) (hk : w.Holds c.z) (hnext : c.z + 1 < w.stop) :
    resolveCube F w slots c = .ok (F.cubeRecord true c) := by
  have hplace : ∀ e ∈ cubeEdges c, e.2 ∈ layerEdges F.dimensions e.1 e.2.z ∧ w.Holds e.2.z ∧
      (e.1 = .z → e.2.z + 1 < w.stop) := by
    intro e he
    have hk' : w.Holds (c.z + 1) := ⟨Nat.le_succ_of_le hk.1, hnext⟩
    simp only [cubeEdges, List.mem_cons, List.not_mem_nil, or_false] at he
    rcases he with rfl | rfl | rfl | rfl | rfl | rfl | rfl | rfl | rfl | rfl | rfl | rfl <;>
      simp [mem_layerEdges, stepForward, edgeWidth, edgeHeight, hk, hk', hnext] <;> omega
  have hfound : ∀ e ∈ cubeEdges c,
      crossingAt? F.dimensions w slots e.1 e.2 = .ok (F.crossing? e.1 e.2) := by
    intro e he
    obtain ⟨hmem, hholds, hz⟩ := hplace e he
    exact crossingAt?_eq h hflat hupright hmem hholds hz
  rw [resolveCube, mapM_eq_ok hfound]
  have hcrossings : ((cubeEdges c).map fun e => F.crossing? e.1 e.2).filterMap id =
      F.cubeCrossings c := List.filterMap_map
  simp only [bind, Except.bind, pure, Except.pure, hcrossings, LatticeField.cubeRecord,
    LatticeField.vertex?]
  cases F.cubeCrossings c <;> rfl

theorem Resident.fillCubes (hw : w.Fits) :
    ∃ found, fillCubes F w slots = .ok found ∧ Resident w found fun k => F.layerAt
      { P k with cubes := (P k).cubes || decide (k + 1 < w.stop) } k := by
  refine h.resolveResident hw fun k hk => ?_
  by_cases hnext : k + 1 < w.stop
  · rw [if_pos hnext]
    simp only [LatticeField.layerAt, decide_eq_true hnext, Bool.or_true]
    rw [replaceEach_plane (F.cubeRecord true)]
    · rfl
    intro i hi
    cases hc : (P k).cubes with
    | false =>
        obtain ⟨hx, hy⟩ := LatticePoint.pointAt_lt (k := k) hi
        exact resolveCube_eq h hflat hupright (Nat.add_lt_of_lt_sub hx) (Nat.add_lt_of_lt_sub hy)
          hk hnext
    | true => cases hv : F.vertex? (pointAt (F.dimensions.x - 1) k i) <;>
        simp [LatticeField.cubeRecord, hv]
  · rw [if_neg hnext, decide_eq_false hnext, Bool.or_false]

end KnownEdges

end SolidSurface.DualContour
