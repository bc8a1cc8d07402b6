/-! # Surface patches of a cube

The corners of a cube are numbered `x + 2 * y + 4 * z`, and a mask has bit `c` set when corner `c`
is inside. For each of the 256 masks a patch of triangles separates the inside corners from the
outside ones; its vertices are the cube edges with one end on each side.

A patch is drawn by walking the faces. On each face, seen from outside, every run of inside corners
gives one segment, from the edge where the run starts to the edge where it ends; so two inside
corners that face each other diagonally stay apart, and the two cubes at a face agree on its
segments. The segments close into loops and each loop is cut into a fan. Only the least mask of
each class under rotation is drawn, and the other masks of the class get rotated copies.
-/

namespace SolidSurface

/-- Inside corners of a cube, one bit per corner. -/
abbrev CornerMask := Nat

namespace CubeCase

/-- End corners of the twelve edges: four along x, four along y, four along z. -/
def edges : List (Nat × Nat) :=
  [(0, 1), (2, 3), (4, 5), (6, 7), (0, 2), (1, 3), (4, 6), (5, 7), (0, 4), (1, 5), (2, 6), (3, 7)]

/-- Corners of the six faces, counter-clockwise seen from outside. -/
def faces : List (Nat × Nat × Nat × Nat) :=
  [(0, 2, 3, 1), (4, 5, 7, 6), (0, 1, 5, 4), (2, 6, 7, 3), (0, 4, 6, 2), (1, 3, 7, 5)]

def edgeEnds (e : Nat) : Nat × Nat :=
  edges.getD e (0, 0)

def edgeJoining? (a b : Nat) : Option Nat :=
  edges.findIdx? fun e => e == (a, b) || e == (b, a)

/-- The mask of the corners for which `inside` holds. -/
@[inline] def maskOf (inside : Nat → Bool) : CornerMask :=
  (List.range 8).foldl (fun mask c => if inside c then mask ||| 1 <<< c else mask) 0

/-- The mask of the corners that are found to be inside. -/
@[inline] def findMask {ε : Type} (inside : Nat → Except ε Bool) : Except ε CornerMask :=
  (List.range 8).foldlM
    (fun mask c => do return if ← inside c then mask ||| 1 <<< c else mask) 0

/-- Whether edge `e` has one end inside and one outside. -/
def crosses (mask : CornerMask) (e : Nat) : Bool :=
  mask.testBit (edgeEnds e).1 != mask.testBit (edgeEnds e).2

/-! ## Rotations -/

/-- A rotation of the cube, as the list of the images of the corners. -/
abbrev Rotation := List Nat

namespace Rotation

def image (r : Rotation) (c : Nat) : Nat :=
  r.getD c 0

/-- First `inner`, then `outer`. -/
def compose (outer inner : Rotation) : Rotation :=
  inner.map outer.image

def identity : Rotation :=
  List.range 8

def ofCoordinates (f : Nat × Nat × Nat → Nat × Nat × Nat) : Rotation :=
  (List.range 8).map fun c =>
    let (x, y, z) := f (c % 2, c / 2 % 2, c / 4 % 2)
    x + 2 * y + 4 * z

/-- A quarter turn about the x axis. -/
def aboutX : Rotation :=
  ofCoordinates fun (x, y, z) => (x, 1 - z, y)

/-- A quarter turn about the z axis. -/
def aboutZ : Rotation :=
  ofCoordinates fun (x, y, z) => (1 - y, x, z)

/-- Appends a rotation to a list that does not have it yet. -/
def collect (group : List Rotation) (r : Rotation) : List Rotation :=
  if group.contains r then group else group ++ [r]

/-- Appends what the two quarter turns make of entry `i` of the group so far. -/
def expand (group : List Rotation) (i : Nat) : List Rotation :=
  match group[i]? with
  | some r => collect (collect group (compose aboutX r)) (compose aboutZ r)
  | none => group

/-- The 24 rotations of the cube in the order in which repeated quarter turns reach them. -/
def all : List Rotation :=
  (List.range 24).foldl expand [identity]

def onMask (r : Rotation) (mask : CornerMask) : CornerMask :=
  (List.range 8).foldl (fun m c => if mask.testBit c then m ||| 1 <<< r.image c else m) 0

def onEdge (r : Rotation) (e : Nat) : Nat :=
  (edgeJoining? (r.image (edgeEnds e).1) (r.image (edgeEnds e).2)).getD e

end Rotation

/-! ## Drawing a patch -/

/-- A triangle whose corners lie on the edges with the given numbers. -/
structure PatchTriangle where
  a : Nat
  b : Nat
  c : Nat
  deriving DecidableEq, Repr

def PatchTriangle.map (f : Nat → Nat) (t : PatchTriangle) : PatchTriangle :=
  ⟨f t.a, f t.b, f t.c⟩

/-- The segments on one face. Once around the face from each of its corners: if that corner is
outside and the next one inside, a segment runs from the edge between them to the edge that ends
the run of inside corners. -/
def faceSegments (mask : CornerMask) (face : Nat × Nat × Nat × Nat) : List (Nat × Nat) :=
  let (p, q, r, s) := face
  [[p, q, r, s, p], [q, r, s, p, q], [r, s, p, q, r], [s, p, q, r, s]].filterMap fun cycle =>
    match cycle with
    | before :: rest =>
      match rest.takeWhile mask.testBit, rest.dropWhile mask.testBit with
      | first :: run, after :: _ =>
        if mask.testBit before then none
        else do
          let entering ← edgeJoining? before first
          let leaving ← edgeJoining? ((first :: run).getLastD first) after
          return (entering, leaving)
      | _, _ => none
    | [] => none

/-- Every segment of a mask, as the pair of its start and its end. -/
def segments (mask : CornerMask) : List (Nat × Nat) :=
  faces.flatMap (faceSegments mask)

/-- The edges met when segments are followed from edge `e` until one is met again. -/
def follow (segments : List (Nat × Nat)) : Nat → List Nat → Nat → List Nat
  | 0, _, _ => []
  | fuel + 1, visited, e =>
    if visited.contains e then []
    else
      match segments.lookup e with
      | some next => e :: follow segments fuel (e :: visited) next
      | none => [e]

/-- The loops that segments close into, each from its least edge. -/
def loops (segments : List (Nat × Nat)) : List (List Nat) :=
  (List.range 12).foldl (fun found e =>
    if found.any (·.contains e) || (segments.lookup e).isNone then found
    else found ++ [follow segments 12 [] e]) []

/-- A loop cut into triangles at its first edge. -/
def fan : List Nat → List PatchTriangle
  | [] => []
  | apex :: rest => (rest.zip rest.tail).map fun (b, c) => ⟨apex, b, c⟩

def draw (mask : CornerMask) : List PatchTriangle :=
  (loops (segments mask)).flatMap fan

/-! ## The table -/

/-- The least mask that a rotation makes of the given one. -/
def leastImage (mask : CornerMask) : CornerMask :=
  Rotation.all.foldl (fun least r => min least (r.onMask mask)) mask

/-- The patch of the least mask of the class, turned by the first rotation that leads from there. -/
def patch (mask : CornerMask) : List PatchTriangle :=
  let base := leastImage mask
  match Rotation.all.find? fun r => r.onMask base == mask with
  | some r => (draw base).map (PatchTriangle.map r.onEdge)
  | none => []

structure Table where
  patches : Array (List PatchTriangle)
  /-- Number of masks that were drawn; every other one is a rotation of one of these. -/
  drawnCases : Nat
  deriving DecidableEq

namespace Table

def computed : Table :=
  ⟨((List.range 256).map patch).toArray,
    ((List.range 256).filter fun mask => leastImage mask == mask).length⟩

def standard : Table :=
  computed

def get (t : Table) (mask : CornerMask) : List PatchTriangle :=
  t.patches[mask]?.getD []

end Table

end CubeCase

end SolidSurface
