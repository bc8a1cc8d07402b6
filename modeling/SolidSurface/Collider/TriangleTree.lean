import SolidSurface.Closest
import SolidSurface.Hierarchy.Basic
import SolidSurface.Ray

/-! # Triangles in a tree of boxes

Every branch keeps the box around its triangles, and a query leaves out the subtrees whose boxes it
cannot reach.
-/

namespace SolidSurface

inductive TriangleTree (α : Type) where
  | leaf (t : Triangle α)
  | branch (box : Box α) (left right : TriangleTree α)

namespace TriangleTree

variable {α : Type}

def depth : TriangleTree α → Nat
  | leaf _ => 1
  | branch _ l r => 1 + max l.depth r.depth

/-- The triangles from left to right. -/
def triangles : TriangleTree α → List (Triangle α)
  | leaf t => [t]
  | branch _ l r => l.triangles ++ r.triangles

variable [Scalar α]

@[inline] def bounds : TriangleTree α → Box α
  | leaf t => t.bounds
  | branch box _ _ => box

@[specialize] def ofHierarchy : Hierarchy (Triangle α) → TriangleTree α
  | .leaf t => leaf t
  | .branch l r =>
    let left := ofHierarchy l
    let right := ofHierarchy r
    branch (left.bounds.union right.bounds) left right

/-! ## Rays -/

/-- Every place where a ray strikes a triangle. -/
@[specialize] def rayHits (r : Ray α) : TriangleTree α → List (RayHit α)
  | leaf t => (r.strike? t).toList
  | branch box left right =>
    if (r.intervalIn? box).isNone then [] else rayHits r left ++ rayHits r right

/-- The number of places where a ray strikes a triangle. -/
@[specialize] def countHits (r : Ray α) : TriangleTree α → Nat
  | leaf t => if (r.strike? t).isSome then 1 else 0
  | branch box left right =>
    if (r.intervalIn? box).isNone then 0 else countHits r left + countHits r right

/-- Where a ray enters a box; a box that it misses is never entered. -/
@[inline] def entry (r : Ray α) (box : Box α) : Extended α :=
  match r.intervalIn? box with
  | some i => .val i.start
  | none => .infinity

/-- A subtree on the way of a ray: where its box is entered, and the search for its first hit below
a limit. -/
structure Subtree (α : Type) where
  entry : Extended α
  search : Extended α → Option (RayHit α)

/-- The first hit in two subtrees, of which `near` is entered first. A subtree entered at or beyond
the limit is not searched, nor is one after it. -/
@[inline] def searchInOrder (near far : Subtree α) (limit : Extended α) : Option (RayHit α) :=
  if limit.le near.entry then none
  else
    match near.search limit with
    | none => if limit.le far.entry then none else far.search limit
    | some hit =>
      if (Extended.val hit.scale).le far.entry then some hit
      else (far.search (.val hit.scale)).or (some hit)

/-- The hit with the least position below a limit. -/
@[specialize] def firstHit? (r : Ray α) : TriangleTree α → Extended α → Option (RayHit α)
  | leaf t, limit => (r.strike? t).filter fun hit => (Extended.val hit.scale).lt limit
  | branch _ l₁ l₂, limit =>
    let left : Subtree α := ⟨entry r l₁.bounds, firstHit? r l₁⟩
    let right : Subtree α := ⟨entry r l₂.bounds, firstHit? r l₂⟩
    if right.entry.lt left.entry then searchInOrder right left limit
    else searchInOrder left right limit

/-! ## Balls and nearest points -/

/-- Whether a ball reaches a triangle. -/
@[specialize] def touchesBall (center : Point α) (radius : α) : TriangleTree α → Bool
  | leaf t => t.touchesBall center radius
  | branch box left right =>
    decide (box.distanceSquared center ≤ radius * radius) &&
      (touchesBall center radius left || touchesBall center radius right)

/-- A point of a surface with its squared distance from another point. -/
structure Candidate (α : Type) where
  point : Point α
  distanceSquared : Extended α

/-- The nearer of a candidate and the closest point of a triangle. -/
@[specialize] def Candidate.improve (p : Point α) (best : Candidate α) (t : Triangle α) :
    Candidate α :=
  let q := t.closestPoint p
  let d := (q - p).normSquared
  if (Extended.val d).lt best.distanceSquared then ⟨q, .val d⟩ else best

/-- The nearest candidate among the triangles of a tree and the best one so far. Of two subtrees the
one with the nearer box is searched first. -/
@[specialize] def nearest (p : Point α) : TriangleTree α → Candidate α → Candidate α
  | leaf t, best => best.improve p t
  | branch box left right, best =>
    if best.distanceSquared.le (.val (box.distanceSquared p)) then best
    else if left.bounds.distanceSquared p ≤ right.bounds.distanceSquared p then
      nearest p right (nearest p left best)
    else nearest p left (nearest p right best)

end TriangleTree

end SolidSurface
