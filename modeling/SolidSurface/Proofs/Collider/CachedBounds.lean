import SolidSurface.Mesh.Basic
import SolidSurface.Proofs.Binary64.LeastBoxes
import SolidSurface.Proofs.Collider.Flattening

/-! # Cached boxes

Trees of triangles and joins keep the boxes of what is below them. In floating point each of these
boxes is a union of the boxes of the triangles below, so it has the same corners as the bounds of a
mesh or of a hierarchy with the same triangles, however the collider was put together.
-/

namespace SolidSurface

variable {α : Type}

/-! ## Triangles -/

/-- Unless some coordinate is not a number, the box around a triangle holds its last corner. -/
theorem Triangle.isEmpty_bounds {t : Triangle Float} (h : t.bounds.IsNumeric) :
    t.bounds.isEmpty = false := by
  refine Box.isEmpty_eq_false_of_contains (p := t.c) (Box.contains_iff.mpr fun a => ⟨?_, ?_⟩)
  · have hlower := h.lower a
    simp only [bounds, Vec3.inf, Vec3.get_zipWith] at hlower ⊢
    exact Binary64.lesser_le_right hlower
  · have hupper := h.upper a
    simp only [bounds, Vec3.sup, Vec3.get_zipWith] at hupper ⊢
    exact Binary64.right_le_greater hupper

/-- Boxes around the same triangles have the same corners, also where there are no triangles. -/
theorem Box.IsUnion.coincides_of_triangles {ts : List (Triangle Float)} {r s : Box Float}
    (hr : IsUnion (ts.map Triangle.bounds) r) (hs : IsUnion (ts.map Triangle.bounds) s)
    (hnumeric : ∀ t ∈ ts, t.bounds.IsNumeric) : r.coincides s = true := by
  cases ts with
  | nil =>
      rw [hr.eq_empty rfl, hs.eq_empty rfl]
      exact isNumeric_iff.mp isNumeric_empty
  | cons t ts =>
      have hmem : t ∈ t :: ts := List.mem_cons_self
      exact hr.coincides_of_objects hs hnumeric
        ⟨t, hmem, Triangle.isEmpty_bounds (hnumeric t hmem)⟩

/-! ## Trees -/

namespace TriangleTree

/-- The box of every node with the triangles below it. -/
def nodes [Scalar α] : TriangleTree α → List (Box α × List (Triangle α))
  | leaf t => [(t.bounds, [t])]
  | branch box l r => (box, l.triangles ++ r.triangles) :: (l.nodes ++ r.nodes)

theorem mem_nodes [Scalar α] (tree : TriangleTree α) : (tree.bounds, tree.triangles) ∈ tree.nodes := by
  cases tree with
  | leaf t => exact List.mem_cons_self
  | branch box l r => exact List.mem_cons_self

end TriangleTree

theorem Hierarchy.isUnion_bounds [Scalar α] {β : Type} (box : β → Box α) (h : Hierarchy β) :
    Box.IsUnion (h.toList.map box) (h.bounds box) := by
  induction h with
  | leaf b => exact .single (box b)
  | branch l r ihl ihr =>
      rw [toList, List.map_append]
      exact ihl.union ihr

theorem TriangleTree.bounds_ofHierarchy [Scalar α] (h : Hierarchy (Triangle α)) :
    (ofHierarchy h).bounds = h.bounds Triangle.bounds := by
  induction h with
  | leaf t => rfl
  | branch l r ihl ihr => rw [ofHierarchy, bounds, ihl, ihr, Hierarchy.bounds]

theorem TriangleTree.isUnion_of_mem_nodes [Scalar α] (h : Hierarchy (Triangle α))
    {n : Box α × List (Triangle α)} (hn : n ∈ (ofHierarchy h).nodes) :
    Box.IsUnion (n.2.map Triangle.bounds) n.1 := by
  induction h with
  | leaf t =>
      rw [List.mem_singleton.mp hn]
      exact .single t.bounds
  | branch l r ihl ihr =>
      rw [ofHierarchy, nodes, List.mem_cons, List.mem_append] at hn
      rcases hn with rfl | hn | hn
      · rw [bounds_ofHierarchy, bounds_ofHierarchy, triangles_ofHierarchy, triangles_ofHierarchy]
        exact (Hierarchy.branch l r).isUnion_bounds Triangle.bounds
      · exact ihl hn
      · exact ihr hn

/-! ## Joins -/

namespace Collider

section Nodes

variable [Scalar α]

mutual

/-- The box of every node and every join with the triangles below it. -/
def nodes : Collider α → List (Box α × List (Triangle α))
  | triangle t => [(t.bounds, [t])]
  | tree m => m.root.nodes
  | joined box parts => (box, trianglesAll parts) :: nodesAll parts

def nodesAll : List (Collider α) → List (Box α × List (Triangle α))
  | [] => []
  | c :: cs => c.nodes ++ nodesAll cs

end

theorem nodesAll_eq_flatMap (cs : List (Collider α)) : nodesAll cs = cs.flatMap nodes := by
  induction cs with
  | nil => rfl
  | cons c cs ih => rw [nodesAll, List.flatMap_cons, ih]

theorem mem_nodes (c : Collider α) : (c.bounds, c.triangles) ∈ c.nodes := by
  cases c with
  | triangle t => rw [nodes]; exact List.mem_cons_self
  | tree m => rw [nodes]; exact m.root.mem_nodes
  | joined box parts => rw [nodes]; exact List.mem_cons_self

/-- Every box is a union of the boxes of the triangles below it. -/
def KeepsUnions (c : Collider α) : Prop :=
  ∀ n ∈ c.nodes, Box.IsUnion (n.2.map Triangle.bounds) n.1

variable {c : Collider α} {box : Box α} {parts : List (Collider α)}

theorem flatMap_triangles_pieces (box : Box α) (c : Collider α) :
    (pieces box c).flatMap triangles = c.triangles := by
  rcases pieces_eq_or box c with ⟨hwhole, -⟩ | ⟨inner, parts, rfl, -, hparts⟩
  · rw [hwhole, List.flatMap_singleton]
  · rw [hparts, triangles, trianglesAll_eq_flatMap]

theorem mem_nodes_of_mem_pieces {d : Collider α} (hd : d ∈ pieces box c)
    {n : Box α × List (Triangle α)} (hn : n ∈ d.nodes) : n ∈ c.nodes := by
  rcases pieces_eq_or box c with ⟨hwhole, -⟩ | ⟨inner, parts, rfl, -, hparts⟩
  · rw [hwhole, List.mem_singleton] at hd
    rwa [← hd]
  · rw [hparts] at hd
    rw [nodes, nodesAll_eq_flatMap]
    exact List.mem_cons_of_mem _ (List.mem_flatMap.mpr ⟨d, hd, hn⟩)

theorem triangles_join (parts : List (Collider α)) :
    (join parts).triangles = parts.flatMap triangles := by
  rw [join_eq, triangles, trianglesAll_eq_flatMap, List.flatMap_assoc]
  exact List.flatMap_congr fun c _ => flatMap_triangles_pieces _ c

/-- The parts that a join takes over keep their boxes. -/
theorem keepsUnions_join (h : ∀ c ∈ parts, c.KeepsUnions) : (join parts).KeepsUnions := by
  have hroot : Box.IsUnion ((join parts).triangles.map Triangle.bounds) (join parts).bounds := by
    rw [triangles_join, List.map_flatMap]
    exact Box.isUnion_unionAll_flatMap fun c hc => h c hc _ c.mem_nodes
  intro n hn
  rw [join_eq, nodes, nodesAll_eq_flatMap, List.mem_cons] at hn
  rcases hn with rfl | hn
  · rwa [join_eq] at hroot
  · obtain ⟨d, hd, hn⟩ := List.mem_flatMap.mp hn
    obtain ⟨c, hc, hd⟩ := List.mem_flatMap.mp hd
    exact h c hc n (mem_nodes_of_mem_pieces hd hn)

theorem keepsUnions_joinTree {h : Hierarchy (Collider α)}
    (hleaves : ∀ c ∈ h.toList, c.KeepsUnions) : (joinTree h).KeepsUnions := by
  induction h with
  | leaf c => exact hleaves c (List.mem_singleton_self c)
  | branch l r ihl ihr =>
      refine keepsUnions_join fun c hc => ?_
      rcases List.mem_pair.mp hc with rfl | rfl
      · exact ihl fun d hd => hleaves d (List.mem_append_left _ hd)
      · exact ihr fun d hd => hleaves d (List.mem_append_right _ hd)

/-- The colliders that are made of triangles, of trees of triangles over any hierarchy, and by
joining again and again. -/
inductive Made : Collider α → Prop
  | triangle (t : Triangle α) : Made (triangle t)
  | tree (h : Hierarchy (Triangle α)) (size : Nat) : Made (tree ⟨.ofHierarchy h, size⟩)
  | join {parts : List (Collider α)} (hparts : ∀ c ∈ parts, Made c) : Made (join parts)
  | hierarchy {h : Hierarchy (Collider α)} (hleaves : ∀ c ∈ h.toList, Made c) :
      Made (ofHierarchy h)

theorem Made.keepsUnions (h : Made c) : c.KeepsUnions := by
  induction h with
  | triangle t =>
      intro n hn
      rw [nodes, List.mem_singleton] at hn
      rw [hn]
      exact .single t.bounds
  | tree h size =>
      intro n hn
      rw [nodes] at hn
      exact TriangleTree.isUnion_of_mem_nodes h hn
  | join _ ih => exact keepsUnions_join ih
  | @hierarchy h _ ih =>
      cases h with
      | leaf c => exact keepsUnions_join ih
      | branch l r => exact keepsUnions_joinTree ih

/-- Joining over a hierarchy unites the boxes of the colliders at its leaves. -/
theorem isUnion_bounds_joinTree (h : Hierarchy (Collider α)) :
    Box.IsUnion (h.toList.map bounds) (joinTree h).bounds := by
  induction h with
  | leaf c => exact .single c.bounds
  | branch l r ihl ihr =>
      have hboth : ∀ h ∈ [l, r], Box.IsUnion (h.toList.map bounds) (joinTree h).bounds := by
        intro h hmem
        rcases List.mem_pair.mp hmem with rfl | rfl
        · exact ihl
        · exact ihr
      have hunion := Box.isUnion_unionAll_flatMap hboth
      rwa [List.flatMap_cons, List.flatMap_singleton, ← List.map_append] at hunion

theorem isUnion_bounds_ofHierarchy (h : Hierarchy (Collider α)) :
    Box.IsUnion (h.toList.map bounds) (ofHierarchy h).bounds := by
  cases h with
  | leaf c => exact Box.isUnion_unionAll [c.bounds]
  | branch l r => exact isUnion_bounds_joinTree (.branch l r)

end Nodes

/-! ## One box for the same objects -/

variable {κ : Type} [BEq κ] [Hashable κ]

/-- In floating point, without coordinates that are not numbers, a union of boxes in any order and
grouping holds the points of all of them and nothing that a box around those that are not empty
leaves out, and unless all are empty its corners are the same, up to the signs of zeros. So the
bounds of hierarchies over the same objects coincide, as do the boxes of joins of the same colliders;
and every box in a collider, however it was made, coincides with the bounds of a mesh and of a
hierarchy with the triangles below that box. -/
theorem bounds_coincide :
    (∀ (bs : List (Box Float)) (b : Box Float), (∀ c ∈ bs, c.IsNumeric) → Box.IsUnion bs b →
      (∀ c ∈ bs, b.HoldsPointsOf c) ∧
      (∀ d : Box Float, (∀ c ∈ bs, c.isEmpty = false → d.HoldsPointsOf c) → d.HoldsPointsOf b) ∧
      ((∃ c ∈ bs, c.isEmpty = false) → ∀ d, Box.IsUnion bs d → b.coincides d = true)) ∧
    (∀ (β : Type) (box : β → Box Float) (h h' : Hierarchy β), h.toList.Perm h'.toList →
      (∀ x ∈ h.toList, (box x).IsNumeric) → (∃ x ∈ h.toList, (box x).isEmpty = false) →
      (h.bounds box).coincides (h'.bounds box) = true) ∧
    (∀ (cs : List (Collider Float)) (h : Hierarchy (Collider Float)), h.toList.Perm cs →
      (∀ c ∈ cs, c.bounds.IsNumeric) → (∃ c ∈ cs, c.bounds.isEmpty = false) →
      (ofHierarchy h).bounds.coincides (join cs).bounds = true ∧
        (ofHierarchy h).bounds.coincides (h.bounds bounds) = true) ∧
    ∀ c : Collider Float, Made c → (c.bounds, c.triangles) ∈ c.nodes ∧
      ∀ n ∈ c.nodes, (∀ t ∈ n.2, t.bounds.IsNumeric) →
        (∀ m : Mesh Float κ, m.triangles.Perm n.2 → n.1.coincides m.bounds = true) ∧
        ∀ h : Hierarchy (Triangle Float), h.toList.Perm n.2 →
          n.1.coincides (h.bounds Triangle.bounds) = true := by
  refine ⟨fun bs b hbs hb => ⟨fun c hc => hb.holdsPointsOf hbs hc, fun d hd => ?_,
    fun hsome d hd => hb.coincides hd hbs hsome⟩, ?_, ?_, fun c hc => ⟨c.mem_nodes, ?_⟩⟩
  · refine hb.holdsPointsOf_of_forall hbs fun c hc => ?_
    cases hempty : c.isEmpty with
    | true => exact Box.holdsPointsOf_of_isEmpty hempty
    | false => exact hd c hc hempty
  · intro β box h h' hperm hnumeric hsome
    exact (h.isUnion_bounds box).coincides_of_objects
      (.perm (hperm.symm.map box) (h'.isUnion_bounds box)) hnumeric hsome
  · intro cs h hperm hnumeric hsome
    have hjoined : Box.IsUnion (cs.map bounds) (ofHierarchy h).bounds :=
      .perm (hperm.map bounds) (isUnion_bounds_ofHierarchy h)
    have hbounds : Box.IsUnion (cs.map bounds) (h.bounds bounds) :=
      .perm (hperm.map bounds) (h.isUnion_bounds bounds)
    exact ⟨hjoined.coincides_of_objects (Box.isUnion_unionAll _) hnumeric hsome,
      hjoined.coincides_of_objects hbounds hnumeric hsome⟩
  · intro n hn hnumeric
    have hcached := hc.keepsUnions n hn
    refine ⟨fun m hperm => ?_, fun h hperm => ?_⟩
    · exact hcached.coincides_of_triangles (.perm (hperm.map _) (Box.isUnion_unionAll _)) hnumeric
    · exact hcached.coincides_of_triangles (.perm (hperm.map _) (h.isUnion_bounds _)) hnumeric

/-- Two triangles joined step by step, and as a mesh in the other order. -/
theorem bounds_coincide_twoTriangles :
    let s : Triangle Float := ⟨⟨0, 0, 0⟩, ⟨1, 0, 0⟩, ⟨0, 1, 0⟩⟩
    let t : Triangle Float := ⟨⟨-0, 2, 0⟩, ⟨3, 2, 1⟩, ⟨3, 0, -1⟩⟩
    let c := join [join [triangle s], triangle t]
    let inverted : Box Float := ⟨⟨1, 0, 0⟩, ⟨0, 0, 0⟩⟩
    (Box.unionAll [inverted, s.bounds, .empty, t.bounds]).coincides
        (Box.unionAll [t.bounds, .empty, s.bounds, inverted]) = true ∧
      c.bounds.coincides (Mesh.ofList [t, s] (by decide) : Mesh Float UInt64).bounds = true := by
  intro s t c inverted
  obtain ⟨hunion, -, -, hcollider⟩ := bounds_coincide (κ := UInt64)
  have hpair : Made c := .join fun d hd => by
    rcases List.mem_pair.mp hd with rfl | rfl
    · exact .join fun d hd => List.mem_singleton.mp hd ▸ .triangle s
    · exact .triangle t
  obtain ⟨hroot, hnodes⟩ := hcollider c hpair
  constructor
  · obtain ⟨-, -, hsame⟩ := hunion [inverted, s.bounds, .empty, t.bounds] _ (by decide +kernel)
      (Box.isUnion_unionAll _)
    exact hsame (by decide +kernel) _
      (.perm (List.reverse_perm _) (Box.isUnion_unionAll [t.bounds, .empty, s.bounds, inverted]))
  · have htriangles : c.triangles = [s, t] := by
      simp only [c, triangles_join, triangles, List.flatMap_cons, List.flatMap_nil, List.append_nil,
        List.cons_append, List.nil_append]
    rw [htriangles] at hroot
    exact (hnodes _ hroot (by decide +kernel)).1 _ (.swap s t [])

end Collider

end SolidSurface
