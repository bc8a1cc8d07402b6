import Mathlib.Order.Bounds.Basic
import SolidSurface.Proofs.Closest
import SolidSurface.Proofs.Collider.CachedBounds

/-! # The distance of a box

The distance by which subtrees are left out is that of a nearest point of their box. A larger box
has more points, so it is no farther away, and the triangles below a node are among the points of
its box.
-/

namespace SolidSurface

variable {α : Type} [FieldScalar α] {p : Point α}

/-- The squared distances of the points of a shape from `p`. -/
def squaredDistances (shape : Point α → Prop) (p : Point α) : Set α :=
  {d | ∃ x, shape x ∧ (x - p).normSquared = d}

theorem squaredDistances_mono {shape shape' : Point α → Prop} (h : ∀ x, shape x → shape' x) :
    squaredDistances shape p ⊆ squaredDistances shape' p := by
  rintro d ⟨x, hx, hd⟩
  exact ⟨x, h x hx, hd⟩

/-! ## Boxes with points -/

namespace Box

variable {b c : Box α} {x : Point α}

theorem isLeast_distanceSquared (hx : b.contains x = true) (p : Point α) :
    IsLeast (squaredDistances (b.contains · = true) p) (b.distanceSquared p) := by
  refine ⟨exists_contains_normSquared_eq hx p, ?_⟩
  rintro d ⟨y, hy, rfl⟩
  exact distanceSquared_le hy p

theorem distanceSquared_eq_zero_iff (hx : b.contains x = true) :
    b.distanceSquared p = 0 ↔ b.contains p = true := by
  obtain ⟨⟨q, hq, hnear⟩, hleast⟩ := isLeast_distanceSquared hx p
  constructor
  · intro hzero
    rwa [Vec3.eq_of_normSquared_sub_le (hnear.trans hzero).le] at hq
  · intro hp
    have hself : (p - p).normSquared = 0 := by simp [Vec3.normSquared, Vec3.dot]
    exact le_antisymm (hleast ⟨p, hp, hself⟩) (hnear ▸ Vec3.normSquared_nonneg (q - p))

theorem Covers.distanceSquared_le (h : b.Covers c) (hx : c.contains x = true) (p : Point α) :
    b.distanceSquared p ≤ c.distanceSquared p :=
  (isLeast_distanceSquared hx p).mono (isLeast_distanceSquared (h x hx) p)
    (squaredDistances_mono h)

end Box

/-! ## Nodes -/

namespace Collider

variable {c : Collider α} {n : Box α × List (Triangle α)} {t : Triangle α}

/-- The box of a node covers the triangles below it. -/
theorem Made.covers_bounds (h : Made c) (hn : n ∈ c.nodes) (ht : t ∈ n.2) :
    n.1.Covers t.bounds := by
  have hnumeric : ∀ b ∈ n.2.map Triangle.bounds, b.IsNumeric := fun b _ =>
    ⟨fun a => Scalar.beq_self (b.lower.get a), fun a => Scalar.beq_self (b.upper.get a)⟩
  exact (h.keepsUnions n hn).holdsPointsOf hnumeric (List.mem_map_of_mem ht)

/-- The distance of a box whose bounds are in order is the least distance of its points. It is zero
for these points alone, and uniting the box with any other one does not increase it. The boxes of
the nodes in a collider, however it was made, are such boxes, and no triangle below a node is nearer
than its box. -/
theorem boxDistances_exact (p : Point α) :
    (∀ b : Box α, (∀ a, b.lower.get a ≤ b.upper.get a) →
      IsLeast (squaredDistances (b.contains · = true) p) (b.distanceSquared p) ∧
      (b.distanceSquared p = 0 ↔ b.contains p = true) ∧
      ∀ c : Box α, (b.union c).distanceSquared p ≤ b.distanceSquared p ∧
        (c.union b).distanceSquared p ≤ b.distanceSquared p) ∧
    ∀ c : Collider α, Made c → (c.bounds, c.triangles) ∈ c.nodes ∧
      ∀ n ∈ c.nodes, ∀ t ∈ n.2, (∀ a, n.1.lower.get a ≤ n.1.upper.get a) ∧
        n.1.distanceSquared p ≤ (t.closestPoint p - p).normSquared ∧
        n.1.distanceSquared p ∈ lowerBounds (squaredDistances t.HasPoint p) := by
  constructor
  · intro b hb
    obtain ⟨hlower, -⟩ := Box.contains_corners_of_le hb
    refine ⟨Box.isLeast_distanceSquared hlower p, Box.distanceSquared_eq_zero_iff hlower,
      fun c => ⟨?_, ?_⟩⟩
    · exact (Box.union_covers_left b c).distanceSquared_le hlower p
    · exact (Box.union_covers_right c b).distanceSquared_le hlower p
  · refine fun c hc => ⟨c.mem_nodes, fun n hn t ht => ?_⟩
    have hcovers := hc.covers_bounds hn ht
    have hpoint : ∀ x, t.HasPoint x → n.1.contains x = true := fun x hx =>
      hcovers x hx.contains_bounds
    have hclosest := hpoint _ (t.closestPoint_hasPoint p)
    refine ⟨fun a => ?_, Box.distanceSquared_le hclosest p, ?_⟩
    · obtain ⟨hlower, hupper⟩ := Box.contains_iff.mp hclosest a
      exact hlower.trans hupper
    · exact lowerBounds_mono_set (squaredDistances_mono hpoint)
        (Box.isLeast_distanceSquared hclosest p).2

/-- A point beside a unit box, which a union brings nearer, and above one of the triangles in a tree
that is joined with another triangle. -/
theorem boxDistances_exact_joined :
    let p : Point Fraction := ⟨3, 1 / 2, 2⟩
    let b : Box Fraction := ⟨⟨0, 0, 0⟩, ⟨1, 1, 1⟩⟩
    let s : Triangle Fraction := ⟨⟨0, 0, 0⟩, ⟨1, 0, 0⟩, ⟨0, 1, 0⟩⟩
    let t : Triangle Fraction := ⟨⟨2, 0, 1⟩, ⟨3, 0, 1⟩, ⟨2, 1, 1⟩⟩
    let c := join [tree ⟨.ofHierarchy (.branch (.leaf s) (.leaf t)), 2⟩, triangle s]
    (∀ a, b.lower.get a ≤ b.upper.get a) ∧
      IsLeast (squaredDistances (b.contains · = true) p) 5 ∧
      (b.union ⟨⟨1, 0, 0⟩, ⟨2, 1, 1⟩⟩).distanceSquared p ≤ 5 ∧
      Made c ∧ (c.bounds, [s, t, s]) ∈ c.nodes ∧ c.bounds.distanceSquared p = 1 ∧
      1 ≤ (t.closestPoint p - p).normSquared ∧ 1 ∈ lowerBounds (squaredDistances t.HasPoint p) := by
  intro p b s t c
  have hb : ∀ a, b.lower.get a ≤ b.upper.get a := fun a => by cases a <;> decide +kernel
  have hc : Made c := .join fun d hd => by
    rcases List.mem_pair.mp hd with rfl | rfl
    · exact .tree _ 2
    · exact .triangle s
  have htriangles : c.triangles = [s, t, s] := by
    simp only [c, triangles_join, triangles, TriangleTree.ofHierarchy, TriangleTree.triangles,
      List.flatMap_cons, List.flatMap_nil, List.append_nil, List.cons_append, List.nil_append]
  have hfive : b.distanceSquared p = 5 := by decide +kernel
  have hone : c.bounds.distanceSquared p = 1 := by decide +kernel
  -- From here on only these facts about the collider count, not how it is computed.
  clear_value c
  obtain ⟨hboxes, hcolliders⟩ := boxDistances_exact p
  obtain ⟨hleast, -, hunion⟩ := hboxes b hb
  obtain ⟨hroot, hnodes⟩ := hcolliders c hc
  rw [htriangles] at hroot
  obtain ⟨-, hclosest, hpoints⟩ := hnodes _ hroot t (by simp)
  rw [hfive] at hleast
  exact ⟨hb, hleast, (hunion _).1.trans hfive.le, hc, hroot, hone, hone.ge.trans hclosest,
    fun d hd => hone.ge.trans (hpoints hd)⟩

end Collider

end SolidSurface
