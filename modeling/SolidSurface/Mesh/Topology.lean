import SolidSurface.Mesh.Basic

/-! # Segments and fans

Two triangles are joined along a segment when both have it as a side. A mesh is manifold when every
segment belongs to exactly two triangles, and a vertex is singular when the triangles around it
form more than one fan.
-/

namespace SolidSurface

open Std (HashMap)

namespace Mesh

variable {α κ : Type} [BEq κ] [Hashable κ] [Keyed α κ]

section Segments

variable [Ord κ]

/-- How often each undirected segment occurs as a side. -/
def sideCounts (m : Mesh α κ) : HashMap (Segment κ) Nat :=
  m.triangles.foldl (fun usage t => t.sides.foldl (fun usage (p, q) =>
    usage.alter (Segment.between p q) fun count? => some (count?.getD 0 + 1)) usage) ∅

def isManifold (m : Mesh α κ) : Bool :=
  m.sideCounts.all fun _ count => count == 2

/-- Every segment with its count, in the order of the keys. -/
def segmentCounts (m : Mesh α κ) : List (Segment κ × Nat) :=
  m.sideCounts.toList.mergeSort fun s t => s.1.le t.1

end Segments

/-- The corners of a triangle other than the vertex `center`. -/
def rim (center : PointKey κ) (t : Triangle α) : List (PointKey κ) :=
  (t.corners.map PointKey.ofPoint).filter (· != center)

/-- Whether two triangles around a vertex, given by their rims, share a rim vertex. -/
def rimsMeet (r s : List (PointKey κ)) : Bool :=
  r.any s.contains

section Search

variable {ρ : Type} (joined : ρ → ρ → Bool)

/-- What a depth-first search leaves of `apart`: an element is pushed on the stack when one that it
is joined to is popped. -/
def unreached : List ρ → List ρ → List ρ
  | [], apart => apart
  | r :: stack, apart =>
    let parts := apart.partition (joined r)
    unreached (parts.1.reverse ++ stack) parts.2
termination_by stack apart => stack.length + apart.length
decreasing_by
  have hparts := List.length_eq_countP_add_countP (joined r) (l := apart)
  simp only [Bool.not_eq_true, Bool.decide_eq_false, List.countP_eq_length_filter] at hparts
  simp only [List.partition_eq_filter_filter, List.length_append, List.length_reverse,
    List.length_cons, Function.comp_def]
  omega

theorem length_unreached_le (stack apart : List ρ) :
    (unreached joined stack apart).length ≤ apart.length := by
  fun_induction unreached joined stack apart with
  | case1 apart => exact Nat.le_refl _
  | case2 r stack apart parts ih =>
      have hparts : parts.2 = apart.filter (not ∘ joined r) := by simp [parts]
      exact Nat.le_trans ih (hparts ▸ List.length_filter_le _ _)

/-- How many searches reach everything: each starts from the first element that is left. -/
def searchCount : List ρ → Nat
  | [] => 0
  | r :: rest => searchCount (unreached joined [r] rest) + 1
termination_by rs => rs.length
decreasing_by exact Nat.lt_succ_of_le (length_unreached_le joined [r] rest)

end Search

/-- The number of fans that triangles form around a vertex. -/
def fanCount (center : PointKey κ) (ts : List (Triangle α)) : Nat :=
  searchCount rimsMeet (ts.map (rim center))

/-- Keys of an index around which the triangles behind the handles form more than one fan, in
order. -/
def singularKeys [Ord κ] (index : HandleIndex κ) (get? : TriangleHandle → Option (Triangle α)) :
    List (PointKey κ) :=
  let singular := index.toList.filter fun (k, ids) => 1 < fanCount k (ids.filterMap get?)
  (singular.map Prod.fst).mergeSort PointKey.le

/-- Vertices around which the triangles form more than one fan, in the order of the keys. -/
def singularPoints [Ord κ] (m : Mesh α κ) : List (Point α) × Mesh α κ :=
  let (index, m) := m.withIndex
  ((singularKeys index m.get?).map PointKey.point, m)

end Mesh

end SolidSurface
