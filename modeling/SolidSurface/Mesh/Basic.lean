import Std.Data.HashMap
import SolidSurface.Mesh.Key
import SolidSurface.Storage
import SolidSurface.Triangle

/-! # Triangle meshes

A mesh is a log of triangles. Adding a triangle appends a slot, whose position is the handle of the
triangle for good; removing a triangle clears its slot. Handles are 32 bits wide, so there is only
so much room for slots. Beside the log a mesh carries the number of live triangles and, once
somebody has asked for it, an index from vertices to handles. Every edit of the log discards the
index.
-/

namespace SolidSurface

open Std (HashMap)

/-- Handle of a triangle in a mesh: the slot that it was written to. -/
structure TriangleHandle where
  slot : UInt32
  deriving DecidableEq, Repr

/-- The number of different handles. -/
def handleCount : Nat :=
  UInt32.size

inductive MeshError where
  /-- There are no handles left for further slots. -/
  | tooManySlots
  /-- A vector of slots that does not fit into memory was asked for. -/
  | capacityOverflow
  deriving DecidableEq, Repr

def MeshError.message : MeshError → String
  | tooManySlots => "mesh exceeds 4294967295 triangle slots"
  | capacityOverflow => capacityMessage

/-- Handles of the triangles around each vertex, in increasing order. -/
abbrev HandleIndex (κ : Type) [BEq κ] [Hashable κ] :=
  HashMap (PointKey κ) (List TriangleHandle)

structure Mesh (α κ : Type) [BEq κ] [Hashable κ] where
  slots : Array (Option (Triangle α))
  liveCount : Nat
  index? : Option (HandleIndex κ)
  /-- Every slot has a handle. -/
  size_slots_le : slots.size ≤ handleCount

namespace Mesh

variable {α κ : Type} [BEq κ] [Hashable κ]

def empty : Mesh α κ :=
  ⟨#[], 0, none, Nat.zero_le _⟩

/-- Bytes taken by a slot: three points and whether they are there. -/
def slotBytes : Nat :=
  3 * 24 + 8

/-- An empty mesh with room reserved for `n` triangles. -/
def emptyWithCapacity (n : Nat) : Except MeshError (Mesh α κ) :=
  if VectorFits n slotBytes then .ok ⟨Array.emptyWithCapacity n, 0, none, Nat.zero_le _⟩
  else .error .capacityOverflow

instance : Inhabited (Mesh α κ) := ⟨empty⟩

/-- Number of live triangles. -/
def size (m : Mesh α κ) : Nat :=
  m.liveCount

def isEmpty (m : Mesh α κ) : Bool :=
  m.liveCount == 0

/-- Appends a triangle, which needs a handle. -/
def add (m : Mesh α κ) (t : Triangle α) : Except MeshError (TriangleHandle × Mesh α κ) :=
  if h : m.slots.size < handleCount then
    .ok (⟨.ofNat m.slots.size⟩, ⟨m.slots.push (some t), m.liveCount + 1, none, by
      rw [Array.size_push]
      exact h⟩)
  else .error .tooManySlots

/-- The triangle behind a handle, unless it was removed or the handle was never issued. -/
def get? (m : Mesh α κ) (id : TriangleHandle) : Option (Triangle α) :=
  m.slots[id.slot.toNat]?.join

/-- Clears a slot and returns what it held. Clearing a slot that holds nothing is no edit. -/
def remove (m : Mesh α κ) (id : TriangleHandle) : Option (Triangle α) × Mesh α κ :=
  match m.get? id with
  | none => (none, m)
  | some t => (some t, ⟨m.slots.setIfInBounds id.slot.toNat none, m.liveCount - 1, none, by
      rw [Array.size_setIfInBounds]
      exact m.size_slots_le⟩)

/-- Appends triangles in order. All of them together have to leave the last handle free, which
`add` would still issue. -/
def extend (m : Mesh α κ) (ts : List (Triangle α)) : Except MeshError (Mesh α κ) :=
  if h : m.slots.size + ts.length < handleCount then
    .ok ⟨m.slots ++ (ts.map some).toArray, m.liveCount + ts.length, none,
      by simpa using Nat.le_of_lt h⟩
  else .error .tooManySlots

def ofTriangles (ts : List (Triangle α)) : Except MeshError (Mesh α κ) :=
  empty.extend ts

/-- The mesh of no more triangles than there are handles. -/
def ofList (ts : List (Triangle α)) (h : ts.length ≤ handleCount) : Mesh α κ :=
  ⟨(ts.map some).toArray, ts.length, none, by simpa using h⟩

theorem extend_ofList_eq_ok (ts us : List (Triangle α)) (hts : ts.length ≤ handleCount)
    (h : (ts ++ us).length < handleCount) :
    (ofList ts hts : Mesh α κ).extend us = .ok (ofList (ts ++ us) (Nat.le_of_lt h)) := by
  have hroom : (ofList ts hts : Mesh α κ).slots.size + us.length < handleCount := by
    simpa [ofList] using h
  rw [extend, dif_pos hroom]
  simp [ofList]

theorem extend_ofList_eq_error (ts us : List (Triangle α)) (hts : ts.length ≤ handleCount)
    (h : handleCount ≤ (ts ++ us).length) :
    (ofList ts hts : Mesh α κ).extend us = .error .tooManySlots := by
  have hroom : ¬(ofList ts hts : Mesh α κ).slots.size + us.length < handleCount := by
    simpa [ofList] using h
  exact dif_neg hroom

/-- A list of triangles makes a mesh as long as it leaves a handle free. -/
theorem ofTriangles_eq_ok {ts : List (Triangle α)} (h : ts.length < handleCount) :
    (ofTriangles ts : Except MeshError (Mesh α κ)) = .ok (ofList ts (Nat.le_of_lt h)) :=
  extend_ofList_eq_ok [] ts (Nat.zero_le _) h

theorem ofTriangles_eq_error {ts : List (Triangle α)} (h : handleCount ≤ ts.length) :
    (ofTriangles ts : Except MeshError (Mesh α κ)) = .error .tooManySlots :=
  extend_ofList_eq_error [] ts (Nat.zero_le _) h

/-- Live triangles in the order they were added. -/
def triangles (m : Mesh α κ) : List (Triangle α) :=
  m.slots.toList.filterMap id

@[simp] theorem triangles_ofList (ts : List (Triangle α)) (h : ts.length ≤ handleCount) :
    (ofList ts h : Mesh α κ).triangles = ts := by
  simp [triangles, ofList, List.filterMap_map]

theorem triangles_of_ofTriangles {ts : List (Triangle α)} {m : Mesh α κ}
    (h : ofTriangles ts = .ok m) : m.triangles = ts := by
  by_cases hts : ts.length < handleCount
  · rw [ofTriangles_eq_ok hts] at h
    rw [← Except.ok.inj h, triangles_ofList]
  · rw [ofTriangles_eq_error (Nat.le_of_not_lt hts)] at h
    cases h

/-- Live triangles with their handles, in the order they were added. -/
def entries (m : Mesh α κ) : List (TriangleHandle × Triangle α) :=
  m.slots.toList.zipIdx.filterMap fun (slot, i) => slot.map fun t => (⟨.ofNat i⟩, t)

/-- Rewrites every corner in place; handles stay valid. -/
def mapPoints (m : Mesh α κ) (f : Point α → Point α) : Mesh α κ :=
  ⟨m.slots.map fun slot => slot.map fun t => t.map f, m.liveCount, none, by
    rw [Array.size_map]
    exact m.size_slots_le⟩

section Index

variable [Keyed α κ]

/-- Enters a handle under one vertex, once. -/
@[inline] def enter (index : HandleIndex κ) (k : PointKey κ) (id : TriangleHandle) :
    HandleIndex κ :=
  index.alter k fun ids? =>
    let ids := ids?.getD []
    some (if ids.contains id then ids else id :: ids)

/-- The vertex index of a list of triangles. The lists are gathered backwards, so that the handle
entered last is in front, and turned around at the end. -/
def indexEntries (es : List (TriangleHandle × Triangle α)) : HandleIndex κ :=
  let gathered := es.foldl (fun index (id, t) =>
    t.corners.foldl (fun index v => enter index (PointKey.ofPoint v) id) index) ∅
  gathered.map fun _ ids => ids.reverse

/-- The vertex index of a mesh as its log stands. -/
def buildIndex (m : Mesh α κ) : HandleIndex κ :=
  indexEntries m.entries

/-- The vertex index and the mesh that remembers it. -/
def withIndex (m : Mesh α κ) : HandleIndex κ × Mesh α κ :=
  match m.index? with
  | some index => (index, m)
  | none =>
    let index := m.buildIndex
    (index, { m with index? := some index })

/-- Handles of the triangles with a corner at `p`, in increasing order. -/
def find (m : Mesh α κ) (p : Point α) : List TriangleHandle × Mesh α κ :=
  let (index, m) := m.withIndex
  (index.getD (PointKey.ofPoint p) [], m)

end Index

section Measures

variable [Scalar α]

/-- The surface area. -/
def area (m : Mesh α κ) : α :=
  m.triangles.foldl (fun sum t => sum + t.area) (-0)

/-- The enclosed volume, for a closed mesh with its front outside. -/
def volume (m : Mesh α κ) : α :=
  m.triangles.foldl (fun sum t => sum + t.signedVolume) (-0)

def bounds (m : Mesh α κ) : Box α :=
  Box.unionAll (m.triangles.map Triangle.bounds)

end Measures

/-- Corners of the faces of a box, each face counter-clockwise seen from outside. -/
def boxFaces : List (Nat × Nat × Nat × Nat) :=
  [(0, 2, 3, 1), (4, 5, 7, 6), (0, 1, 5, 4), (2, 6, 7, 3), (0, 4, 6, 2), (1, 3, 7, 5)]

/-- The halves of the faces of a box with the given corners, with their front outside. -/
def boxTriangles (corner : Nat → Point α) : List (Triangle α) :=
  boxFaces.flatMap fun (i, j, k, l) =>
    [⟨corner i, corner j, corner k⟩, ⟨corner i, corner k, corner l⟩]

theorem length_boxTriangles (corner : Nat → Point α) : (boxTriangles corner).length = 12 :=
  rfl

/-- The surface of a box as twelve triangles. -/
def ofBox [Scalar α] (a b : Point α) : Mesh α κ :=
  ofList (boxTriangles (Box.spanning a b).corner) (by
    rw [length_boxTriangles]
    decide)

end Mesh

end SolidSurface
