import SolidSurface.Proofs.Closest
import SolidSurface.Proofs.Collider.TriangleTree

/-! # The nearest triangle of a tree

A subtree is left out when its box is no nearer than the best candidate so far, and no point of the
box is nearer than the box. Whichever subtree is searched first, the second search starts from what
the first one has found, so the candidates only get better.
-/

namespace SolidSurface.TriangleTree

variable {α : Type} [FieldScalar α]

namespace Candidate

variable {p : Point α} {ts us : List (Triangle α)} {best mid found : Candidate α}

/-- What a triangle has to offer. -/
def ofTriangle (p : Point α) (t : Triangle α) : Candidate α :=
  ⟨t.closestPoint p, .val (t.distanceSquared p)⟩

/-- The best of a candidate and what triangles have to offer. -/
structure IsBest (p : Point α) (ts : List (Triangle α)) (best found : Candidate α) : Prop where
  eq_or_mem : found = best ∨ ∃ t ∈ ts, found = ofTriangle p t
  le_best : found.distanceSquared.toWithTop ≤ best.distanceSquared.toWithTop
  le_offer : ∀ t ∈ ts, found.distanceSquared.toWithTop ≤ t.distanceSquared p

theorem isBest_of_le (h : ∀ t ∈ ts, best.distanceSquared.toWithTop ≤ t.distanceSquared p) :
    IsBest p ts best best :=
  ⟨.inl rfl, le_rfl, h⟩

theorem improve_isBest (p : Point α) (t : Triangle α) (best : Candidate α) :
    IsBest p [t] best (best.improve p t) := by
  simp only [improve]
  split
  · rename_i hlt
    rw [Extended.lt_eq_true_iff] at hlt
    refine ⟨.inr ⟨t, List.mem_singleton_self t, rfl⟩, hlt.le, fun t' ht' => ?_⟩
    rw [List.mem_singleton.mp ht']
    rfl
  · rename_i hle
    rw [Extended.lt_eq_true_iff, not_lt] at hle
    refine isBest_of_le fun t' ht' => ?_
    rw [List.mem_singleton.mp ht']
    exact hle

theorem IsBest.append (h : IsBest p ts best mid) (h' : IsBest p us mid found) :
    IsBest p (ts ++ us) best found where
  eq_or_mem := by
    rcases h'.eq_or_mem with rfl | ⟨t, ht, hfound⟩
    · rcases h.eq_or_mem with hbest | ⟨t, ht, hfound⟩
      · exact .inl hbest
      · exact .inr ⟨t, List.mem_append_left _ ht, hfound⟩
    · exact .inr ⟨t, List.mem_append_right _ ht, hfound⟩
  le_best := h'.le_best.trans h.le_best
  le_offer t ht := by
    rcases List.mem_append.mp ht with ht | ht
    · exact h'.le_best.trans (h.le_offer t ht)
    · exact h'.le_offer t ht

theorem IsBest.perm (h : IsBest p ts best found) (hperm : ts.Perm us) :
    IsBest p us best found where
  eq_or_mem := h.eq_or_mem.imp_right fun ⟨t, ht, hfound⟩ => ⟨t, hperm.mem_iff.mp ht, hfound⟩
  le_best := h.le_best
  le_offer t ht := h.le_offer t (hperm.mem_iff.mpr ht)

end Candidate

/-- The search finds the best of a candidate and the triangles of a tree, whose closest points have
to lie within their bounds. -/
theorem nearest_isBest {tree : TriangleTree α} {p : Point α} (h : tree.Enclosed)
    (hin : ∀ t ∈ tree.triangles, t.bounds.contains (t.closestPoint p) = true)
    (best : Candidate α) : Candidate.IsBest p tree.triangles best (tree.nearest p best) := by
  induction h generalizing best with
  | leaf t => exact Candidate.improve_isBest p t best
  | @branch box l r hl hr hleft hright ihl ihr =>
      have ihl := ihl fun t ht => hin t (List.mem_append_left _ ht)
      have ihr := ihr fun t ht => hin t (List.mem_append_right _ ht)
      rw [nearest]
      split
      · rename_i hprune
        rw [Extended.le_eq_true_iff] at hprune
        refine Candidate.isBest_of_le fun t ht => hprune.trans (WithTop.coe_le_coe.mpr ?_)
        have hcovers := (Enclosed.branch hl hr hleft hright).covers_bounds ht
        exact Box.distanceSquared_le (hcovers _ (hin t ht)) p
      · split
        · exact (ihl best).append (ihr _)
        · exact ((ihr best).append (ihl _)).perm List.perm_append_comm

end SolidSurface.TriangleTree
