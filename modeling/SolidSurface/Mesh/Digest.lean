import SolidSurface.Triangle

/-! # Digests

The coordinates of a list of triangles, each turned into a word of 64 bits, are condensed into one
word by the FNV-1a hash over their bytes, least significant byte first.
-/

namespace SolidSurface.Digest

def offsetBasis : UInt64 := 0xcbf29ce484222325

def prime : UInt64 := 0x100000001b3

@[inline] def addByte (hash byte : UInt64) : UInt64 :=
  (hash ^^^ byte) * prime

def addWord (hash word : UInt64) : UInt64 :=
  ([0, 8, 16, 24, 32, 40, 48, 56] : List UInt64).foldl
    (fun hash shift => addByte hash (word >>> shift &&& 0xff)) hash

@[specialize] def ofTriangles {α : Type} (word : α → UInt64) (ts : List (Triangle α)) : UInt64 :=
  ts.foldl (fun hash t => t.corners.foldl (fun hash p =>
    p.toList.foldl (fun hash x => addWord hash (word x)) hash) hash) offsetBasis

end SolidSurface.Digest
