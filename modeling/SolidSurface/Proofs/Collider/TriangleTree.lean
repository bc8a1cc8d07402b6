import SolidSurface.Proofs.Ray
import SolidSurface.Proofs.Collider.FirstHit

/-! # Ray hits in a tree of boxes

As long as every box covers what is below it, leaving out the subtrees that a ray misses loses no
hit, and the search by entry finds a first one.
-/

namespace SolidSurface.TriangleTree

variable {α : Type} [FieldScalar α]

/-- Every box covers the boxes of its subtrees. -/
inductive Enclosed : TriangleTree α → Prop
  | leaf (t : Triangle α) : Enclosed (leaf t)
  | branch {box : Box α} {l r : TriangleTree α} (hl : box.Covers l.bounds)
      (hr : box.Covers r.bounds) (left : Enclosed l) (right : Enclosed r) :
      Enclosed (branch box l r)

variable {tree : TriangleTree α}

theorem Enclosed.covers_bounds (h : tree.Enclosed) {t : Triangle α} (ht : t ∈ tree.triangles) :
    tree.bounds.Covers t.bounds := by
  induction h with
  | leaf t' =>
      rw [List.mem_singleton.mp ht]
      exact Box.Covers.refl _
  | branch hl hr _ _ ihl ihr =>
      rcases List.mem_append.mp ht with ht | ht
      · exact hl.trans (ihl ht)
      · exact hr.trans (ihr ht)

theorem enclosed_ofHierarchy (h : Hierarchy (Triangle α)) : (ofHierarchy h).Enclosed := by
  induction h with
  | leaf t => exact .leaf t
  | branch l r hl hr =>
      exact .branch (Box.union_covers_left _ _) (Box.union_covers_right _ _) hl hr

omit [FieldScalar α] in
theorem triangles_ofHierarchy [Scalar α] (h : Hierarchy (Triangle α)) :
    (ofHierarchy h).triangles = h.toList := by
  induction h with
  | leaf t => rfl
  | branch l r hl hr => rw [ofHierarchy, triangles, hl, hr, Hierarchy.toList]

/-! ## All hits -/

theorem rayHits_eq (r : Ray α) (h : tree.Enclosed) :
    tree.rayHits r = tree.triangles.filterMap r.strike? := by
  induction h with
  | leaf t =>
      rw [rayHits, triangles, List.filterMap_cons, List.filterMap_nil]
      cases r.strike? t <;> rfl
  | @branch box left right hl hr hleft hright ihl ihr =>
      rw [rayHits]
      split
      · rename_i hmiss
        have hcovers := fun t => (Enclosed.branch hl hr hleft hright).covers_bounds (t := t)
        exact (Ray.filterMap_strike?_eq_nil hcovers hmiss).symm
      · rw [ihl, ihr, triangles, List.filterMap_append]

omit [FieldScalar α] in
theorem countHits_eq [Scalar α] (r : Ray α) (tree : TriangleTree α) :
    tree.countHits r = (tree.rayHits r).length := by
  induction tree with
  | leaf t =>
      rw [countHits, rayHits]
      cases r.strike? t <;> rfl
  | branch box left right ihl ihr =>
      rw [countHits, rayHits]
      split
      · rfl
      · rw [ihl, ihr, List.length_append]

/-! ## The first hit -/

theorem entry_le {r : Ray α} (h : tree.Enclosed) {hit : RayHit α}
    (hhit : hit ∈ tree.triangles.filterMap r.strike?) :
    (entry r tree.bounds).toWithTop ≤ hit.scale := by
  obtain ⟨t, ht, hstrike⟩ := List.mem_filterMap.mp hhit
  obtain ⟨i, hi, hstart⟩ := Ray.exists_intervalIn?_of_strike? (h.covers_bounds ht) hstrike
  rw [entry, hi]
  exact WithTop.coe_le_coe.mpr hstart

theorem firstHit?_isFirst (r : Ray α) (h : tree.Enclosed) (limit : Extended α) :
    IsFirst (tree.triangles.filterMap r.strike?) limit.toWithTop (tree.firstHit? r limit) := by
  induction h generalizing limit with
  | leaf t =>
      rw [firstHit?, triangles, List.filterMap_cons, List.filterMap_nil]
      have hfilter := isFirst_strike?_filter (r.strike? t) limit
      cases hstrike : r.strike? t with
      | none => rwa [hstrike] at hfilter
      | some hit => rwa [hstrike] at hfilter
  | @branch box left right _ _ hleft hright ihl ihr =>
      have hl : Subtree.Finds .exact ⟨entry r left.bounds, firstHit? r left⟩
          {h | h ∈ left.triangles.filterMap r.strike?}
          {h | h ∈ left.triangles.filterMap r.strike?} :=
        ⟨trivial, fun _ _ => trivial, fun _ => entry_le hleft, fun l _ _ => isFirst_iff.mp (ihl l)⟩
      have hr : Subtree.Finds .exact ⟨entry r right.bounds, firstHit? r right⟩
          {h | h ∈ right.triangles.filterMap r.strike?}
          {h | h ∈ right.triangles.filterMap r.strike?} :=
        ⟨trivial, fun _ _ => trivial, fun _ => entry_le hright, fun l _ _ => isFirst_iff.mp (ihr l)⟩
      have happend : {h | h ∈ (branch box left right).triangles.filterMap r.strike?} =
          {h | h ∈ left.triangles.filterMap r.strike?} ∪
            {h | h ∈ right.triangles.filterMap r.strike?} := by
        rw [triangles, List.filterMap_append]
        exact Set.ext fun h => List.mem_append
      rw [isFirst_iff, happend]
      exact searchByEntry_findsFirst hl hr trivial

end SolidSurface.TriangleTree
