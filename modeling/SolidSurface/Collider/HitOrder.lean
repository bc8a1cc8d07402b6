import SolidSurface.Ray
import SolidSurface.Scalar.Binary64

/-! # An order of hits

The hits of a ray come in the order of the tree that was searched. To compare two searches they are
put in the order of their positions, and at one position in the order of the bit patterns of their
triangles.
-/

namespace SolidSurface.RayHit

/-- Lexicographic order of two lists of words. -/
def wordsLE : List UInt64 → List UInt64 → Bool
  | [], _ => true
  | _ :: _, [] => false
  | v :: vs, w :: ws => v < w || (v == w && wordsLE vs ws)

/-- The position of a hit as an ordered word, and the bits of its triangle. -/
def orderWords (h : RayHit Float) : List UInt64 :=
  Binary64.orderBits h.scale ::
    (h.triangle.corners.flatMap Vec3.toList).map fun x => x.toBits

def sort (hs : List (RayHit Float)) : List (RayHit Float) :=
  hs.mergeSort fun g h => wordsLE g.orderWords h.orderWords

end SolidSurface.RayHit
