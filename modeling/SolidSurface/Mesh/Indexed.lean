import SolidSurface.Mesh.Basic
import Std.Data.HashSet

/-! # Shared vertices

The vertices of a mesh are numbered in the order in which they first appear, and each triangle is
written as three numbers of 32 bits. A vertex whose place needs more bits gets the lowest 32 of them.
-/

namespace SolidSurface

open Std (HashMap HashSet)

structure IndexedMesh (α : Type) where
  vertices : Array (Point α)
  faces : Array (UInt32 × UInt32 × UInt32)

namespace Mesh

variable {α κ : Type} [BEq κ] [Hashable κ] [Keyed α κ]

/-- Vertices numbered so far, with the number of each key. -/
structure Numbering (α κ : Type) [BEq κ] [Hashable κ] where
  numbers : HashMap (PointKey κ) UInt32
  vertices : Array (Point α)

/-- The number of a vertex, which is the next free one if the vertex is new. -/
@[inline] def Numbering.number (n : Numbering α κ) (p : Point α) : UInt32 × Numbering α κ :=
  let k := PointKey.ofPoint p
  match n.numbers[k]? with
  | some i => (i, n)
  | none =>
    let next := UInt32.ofNat n.vertices.size
    (next, ⟨n.numbers.insert k next, n.vertices.push p⟩)

def Numbering.face (n : Numbering α κ) (t : Triangle α) :
    (UInt32 × UInt32 × UInt32) × Numbering α κ :=
  let (i, n) := n.number t.a
  let (j, n) := n.number t.b
  let (k, n) := n.number t.c
  ((i, j, k), n)

def indexed (m : Mesh α κ) : IndexedMesh α :=
  let start : Numbering α κ := ⟨∅, #[]⟩
  let (n, faces) := m.triangles.foldl
    (fun (n, faces) t => let (f, n) := n.face t; (n, faces.push f)) (start, #[])
  ⟨n.vertices, faces⟩

/-- Different vertices in the order in which they first appear. -/
def vertices (m : Mesh α κ) : List (Point α) :=
  let (_, found) := (m.triangles.flatMap Triangle.corners).foldl
    (fun ((seen : HashSet (PointKey κ)), found) p =>
      let k := PointKey.ofPoint p
      if seen.contains k then (seen, found) else (seen.insert k, p :: found)) (∅, [])
  found.reverse

end Mesh

end SolidSurface
