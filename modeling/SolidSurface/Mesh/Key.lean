import SolidSurface.Vec

/-! # Vertex keys

Two points are the same vertex when their keys are equal. A key keeps each coordinate exactly, with
the two zeros of a floating-point scalar taken as one.
-/

namespace SolidSurface

/-- Coordinates of type `α` are told apart by keys of type `κ`. -/
class Keyed (α : Type) (κ : outParam Type) where
  key : α → κ
  value : κ → α

structure PointKey (κ : Type) where
  x : κ
  y : κ
  z : κ
  deriving BEq, Hashable, DecidableEq, Repr

namespace PointKey

variable {α κ : Type}

@[inline] def ofPoint [Keyed α κ] (p : Point α) : PointKey κ :=
  ⟨Keyed.key p.x, Keyed.key p.y, Keyed.key p.z⟩

@[inline] def point [Keyed α κ] (k : PointKey κ) : Point α :=
  ⟨Keyed.value k.x, Keyed.value k.y, Keyed.value k.z⟩

/-- Lexicographic. -/
instance [Ord κ] : Ord (PointKey κ) where
  compare k l := (compare k.x l.x).then ((compare k.y l.y).then (compare k.z l.z))

@[inline] def le [Ord κ] (k l : PointKey κ) : Bool :=
  (compare k l).isLE

/-- The different keys of a list in increasing order. -/
def sortUnique [Ord κ] [BEq κ] (ks : List (PointKey κ)) : List (PointKey κ) :=
  (ks.mergeSort le).eraseReps

end PointKey

/-- The two ends of an undirected segment, the smaller key first. -/
structure Segment (κ : Type) where
  low : PointKey κ
  high : PointKey κ
  deriving BEq, Hashable, DecidableEq, Repr

namespace Segment

variable {α κ : Type} [Ord κ]

@[inline] def between [Keyed α κ] (p q : Point α) : Segment κ :=
  let k := PointKey.ofPoint p
  let l := PointKey.ofPoint q
  if k.le l then ⟨k, l⟩ else ⟨l, k⟩

instance : Ord (Segment κ) where
  compare s t := (compare s.low t.low).then (compare s.high t.high)

@[inline] def le (s t : Segment κ) : Bool :=
  (compare s t).isLE

end Segment

end SolidSurface
