import SolidSurface.Collider.HitOrder
import SolidSurface.DistanceField
import SolidSurface.Extraction.DualContour
import SolidSurface.Extraction.MarchingCubes
import SolidSurface.Hierarchy.AreaDensity
import SolidSurface.Mesh.Digest
import SolidSurface.Mesh.Indexed
import SolidSurface.Mesh.Topology
import SolidSurface.Scalar.BitText
import SolidSurface.Solid.Combination
import SolidSurface.Solid.Elementary
import SolidSurface.Solid.Voxels
import SolidSurface.Proofs.DirectedPairs
import SolidSurface.Proofs.Mesh.Winding
import SolidSurface.Proofs.Mesh.VertexIndex
import SolidSurface.Proofs.Scalar.Field
import SolidSurface.Proofs.Scalar.Fraction
import SolidSurface.Proofs.CubeCase.FaceWalk
import SolidSurface.Proofs.CubeCase.PatchBoundary
import SolidSurface.Proofs.Lattice.Sum
import SolidSurface.Proofs.MarchingCubes.Winding
import SolidSurface.Proofs.DualContour.Residency
import SolidSurface.Proofs.DualContour.Filling
import SolidSurface.Proofs.DualContour.Writing
import SolidSurface.Proofs.DualContour.Streaming
import SolidSurface.Proofs.DualContour.Winding
import SolidSurface.Proofs.Box
import SolidSurface.Proofs.Ray
import SolidSurface.Proofs.Hierarchy.Objects
import SolidSurface.Proofs.Collider.SearchOrder
import SolidSurface.Proofs.Collider.FirstHit
import SolidSurface.Proofs.Collider.TriangleTree
import SolidSurface.Proofs.Collider.RayHits
import SolidSurface.Proofs.Mesh.History
import SolidSurface.Proofs.CubeCase.FaceSides
import SolidSurface.Proofs.Mesh.SideCounts
import SolidSurface.Proofs.MarchingCubes.SharedSides
import SolidSurface.Proofs.Lattice.Listing
import SolidSurface.Proofs.MarchingCubes.Manifold
import SolidSurface.Proofs.BorderContract
import SolidSurface.Proofs.Closest
import SolidSurface.Proofs.Collider.Nearest
import SolidSurface.Proofs.DistanceField
import SolidSurface.Proofs.Lattice.Crossing
import SolidSurface.Proofs.DualContour.Crossings
import SolidSurface.Proofs.CubeCase.PatchCorners
import SolidSurface.Proofs.MarchingCubes.Corners
import SolidSurface.Proofs.Mesh.Volume
import SolidSurface.Proofs.CubeCase.Volume
import SolidSurface.Proofs.Grid
import SolidSurface.Proofs.MarchingCubes.Volume
import SolidSurface.Proofs.Bisection
import SolidSurface.Proofs.Mesh.Vertices
import SolidSurface.Proofs.MarchingCubes.Refinement
import SolidSurface.Proofs.Collider.Balls
import SolidSurface.Proofs.BallSearch
import SolidSurface.Proofs.Binary64.Units
import SolidSurface.Proofs.Binary64.Rounding
import SolidSurface.Proofs.Binary64.Arithmetic
import SolidSurface.Proofs.Binary64.Clipping
import SolidSurface.Proofs.Binary64.Boxes
import SolidSurface.Proofs.Binary64.Alike
import SolidSurface.Proofs.Binary64.Coplanar
import SolidSurface.Proofs.Binary64.Coinciding
import SolidSurface.Proofs.Collider.Flattening
import SolidSurface.Proofs.Collider.RoundedHits
import SolidSurface.Solid.Tree
import SolidSurface.Proofs.Scalar.Comparison
import SolidSurface.Proofs.Solid.Tree
import SolidSurface.Proofs.HonestSolids
import SolidSurface.Proofs.BoxParity
import SolidSurface.Proofs.Enclosure
import SolidSurface.Proofs.Scalar.Checked
import SolidSurface.Proofs.ExactProjection
import SolidSurface.Proofs.Binary64.ZeroByZero
import SolidSurface.Proofs.FlatTriangles
import SolidSurface.Proofs.Binary64.Extents
import SolidSurface.Proofs.Hierarchy.Order
import SolidSurface.Proofs.Hierarchy.Medians
import SolidSurface.Proofs.Hierarchy.AreaDensity
import SolidSurface.Proofs.PlaneFit
import SolidSurface.Proofs.TriangleCrossing
import SolidSurface.Proofs.MarchingCubes.Snapping
import SolidSurface.Proofs.Mesh.Translation
import SolidSurface.Proofs.Mesh.SearchCount
import SolidSurface.Proofs.Mesh.Fans
import SolidSurface.Proofs.Binary64.Keys
import SolidSurface.Proofs.Mesh.Numbering
import SolidSurface.Proofs.Mesh.SegmentSharing
import SolidSurface.Proofs.Binary64.Sums
import SolidSurface.Proofs.Binary64.Precision
import SolidSurface.Proofs.BallBounds
import SolidSurface.Proofs.CylinderBounds
import SolidSurface.Proofs.Hierarchy.Balance
import SolidSurface.Proofs.HalfCells
import SolidSurface.Proofs.DualContour.Windows
import SolidSurface.Proofs.Binary64.LeastBoxes
import SolidSurface.Proofs.Collider.CachedBounds
import SolidSurface.Proofs.Collider.BoxDistance
