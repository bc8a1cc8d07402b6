import SolidSurface.Extraction.CubeCase
import SolidSurface.Extraction.Grid
import SolidSurface.Extraction.Refinement

/-! # Marching cubes

The surface is first put together on the half-cell lattice, from the answers at the samples alone,
and only then moved to positions in space. Samples are taken layer by layer, and each layer but the
first adds the surface of the cubes right below it to the mesh.
-/

namespace SolidSurface

open CubeCase (PatchTriangle Table)

structure MarchingCubesSettings (α : Type) where
  /-- Spacing of the samples. -/
  spacing : α
  /-- Halvings spent on each vertex; zero leaves the vertices in the middle of their edges. -/
  refinementSteps : Nat
  /-- Threads that a caller may use; it has no bearing on the surface. -/
  threads : Nat
  deriving DecidableEq, Repr

namespace MarchingCubesSettings

variable {α : Type} [Scalar α]

def standard : MarchingCubesSettings α :=
  ⟨Scalar.decimal 5 2, 0, 0⟩

def withSpacing (spacing : α) : MarchingCubesSettings α :=
  { (standard : MarchingCubesSettings α) with spacing := spacing }

def coarse : MarchingCubesSettings α :=
  ⟨Scalar.decimal 1 1, 0, 0⟩

def fine : MarchingCubesSettings α :=
  ⟨Scalar.decimal 2 2, 8, 0⟩

def check (c : MarchingCubesSettings α) : Except (ExtractionError α) Unit :=
  if Scalar.isPositive c.spacing then .ok () else .error (.invalidSpacing c.spacing)

end MarchingCubesSettings

/-! ## On the lattice -/

namespace MarchingCubes

/-- Corner `c` of the cube whose least corner is `cube`. -/
@[inline] def cubeCorner (cube : LatticePoint) (c : Nat) : LatticePoint :=
  ⟨cube.x + c % 2, cube.y + c / 2 % 2, cube.z + c / 4 % 2⟩

/-- The middle of edge `e` of a cube, in half-cell coordinates: the sum of the two end corners. -/
@[inline] def edgeMiddle (cube : LatticePoint) (e : Nat) : LatticePoint :=
  let (a, b) := CubeCase.edgeEnds e
  Vec3.zipWith (· + ·) (cubeCorner cube a) (cubeCorner cube b)

@[inline] def cubeMask (inside : LatticePoint → Bool) (cube : LatticePoint) : Nat :=
  CubeCase.maskOf fun c => inside (cubeCorner cube c)

@[inline] def placeTriangle (cube : LatticePoint) (t : PatchTriangle) : Triangle Nat :=
  ⟨edgeMiddle cube t.a, edgeMiddle cube t.b, edgeMiddle cube t.c⟩

/-- The surface inside one cube. -/
@[inline] def cubeSurface (inside : LatticePoint → Bool) (cube : LatticePoint) :
    List (Triangle Nat) :=
  (Table.standard.get (cubeMask inside cube)).map (placeTriangle cube)

/-- The surface of a lattice with `n` samples per axis. -/
@[specialize] def latticeSurface (n : Vec3 Nat) (inside : LatticePoint → Bool) :
    List (Triangle Nat) :=
  LatticePoint.flatMapBelow (n.map (· - 1)) (cubeSurface inside)

/-- The mask of a cube in layer `z`, read from the samples of the layers `z` and `z + 1`. -/
@[inline] def readMask (n : Vec3 Nat) (bottom top : Array Bool) (x y : Nat) :
    Except OutOfRange CornerMask :=
  CubeCase.findMask fun c =>
    readAt (if c / 4 = 0 then bottom else top) (x + c % 2 + n.x * (y + c / 2 % 2))

/-- The surface inside the cubes of layer `z`. -/
def layerSurface (n : Vec3 Nat) (z : Nat) (bottom top : Array Bool) :
    Except OutOfRange (List (Triangle Nat)) := do
  let rows ← (List.range (n.y - 1)).mapM fun y => (List.range (n.x - 1)).mapM fun x => do
    let mask ← readMask n bottom top x y
    return (Table.standard.get mask).map (placeTriangle ⟨x, y, z⟩)
  return rows.flatten.flatten

end MarchingCubes

/-! ## In space -/

variable {α κ : Type} [Scalar α] [BEq κ] [Hashable κ] [Keyed α κ]

/-- A surface up to some layer: the samples of that layer and the mesh below it. -/
structure SurfaceBelow (α κ : Type) [BEq κ] [Hashable κ] where
  samples? : Option (Array Bool)
  mesh : Mesh α κ

/-- Takes the surface one layer further. -/
@[specialize] def SurfaceBelow.addLayer (s : Solid α) (g : Grid α) (b : SurfaceBelow α κ)
    (z : Nat) : Except (ExtractionError α) (SurfaceBelow α κ) := do
  let n := g.dimensions
  if ¬VectorFits (n.x * n.y) 1 then
    throw (.samplerStopped z)
  let top := sampleLayer n (fun p => s.contains (g.position p)) z
  if layerLeaks n z top then
    throw .insideOnBorder
  match b.samples? with
  | none => return { b with samples? := some top }
  | some bottom =>
    let surface ← (MarchingCubes.layerSurface n (z - 1) bottom top).mapError .outOfRange
    let m ← (b.mesh.extend (surface.map (Triangle.map g.halfCellPosition))).mapError .mesh
    return ⟨some top, m⟩

/-- The surface of a solid with every vertex in the middle of a sample edge. -/
@[specialize] def midpointSurface (s : Solid α) (g : Grid α) :
    Except (ExtractionError α) (Mesh α κ) := do
  let b ← (List.range g.dimensions.z).foldlM (SurfaceBelow.addLayer s g) ⟨none, .empty⟩
  return b.mesh

@[specialize] def marchingCubes (s : Solid α) (c : MarchingCubesSettings α) :
    Except (ExtractionError α) (Mesh α κ) := do
  c.check
  let g ← Grid.ofBounds s.bounds c.spacing
  let m ← midpointSurface s g
  return if 0 < c.refinementSteps then snapToSurface m s g c.refinementSteps else m

end SolidSurface
