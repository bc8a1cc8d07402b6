import Mathlib.Algebra.Group.Nat.Defs
import Mathlib.Data.Nat.Log
import SolidSurface.Proofs.Hierarchy.Objects

/-! # Trees of least depth

With every level a tree can have twice as many leaves, and a list that is halved again and again
needs no level more than that. Grouping halves its list in the same places, although it sorts every
half anew before it goes on. So each branch over a grouped list joins the two halves of a run that
grouping has come to.
-/

namespace SolidSurface

variable {α β : Type}

namespace Hierarchy

/-! ## Depth -/

theorem two_mul_size_le (h : Hierarchy β) : 2 * h.size ≤ 2 ^ h.depth := by
  induction h with
  | leaf b => exact Nat.le_refl 2
  | branch l r hl hr =>
      have hleft : 2 ^ l.depth ≤ 2 ^ max l.depth r.depth :=
        Nat.pow_le_pow_right Nat.two_pos (Nat.le_max_left _ _)
      have hright : 2 ^ r.depth ≤ 2 ^ max l.depth r.depth :=
        Nat.pow_le_pow_right Nat.two_pos (Nat.le_max_right _ _)
      rw [size, depth, Nat.add_comm 1, Nat.pow_succ]
      omega

/-- No tree is lower than the number of its leaves asks for. -/
theorem one_add_clog_size_le (h : Hierarchy β) : 1 + Nat.clog 2 h.size ≤ h.depth := by
  have hsize := h.size_pos
  have hdouble : Nat.clog 2 (2 * h.size) = Nat.clog 2 h.size + 1 := by
    rw [Nat.clog_of_two_le Nat.one_lt_two (by omega), show (2 * h.size + 2 - 1) / 2 = h.size by omega]
  rw [Nat.add_comm, ← hdouble]
  exact Nat.clog_le_of_le_pow h.two_mul_size_le

/-- The larger half decides about the depth, and it has one level less. -/
theorem depth_ofOrdered (xs : List β) (hne : xs ≠ []) :
    (ofOrdered xs hne).depth = 1 + Nat.clog 2 xs.length := by
  rw [ofOrdered]
  split
  · rename_i hshort
    rw [depth, Nat.clog_of_right_le_one hshort]
  · rename_i hlong
    have hhalf : Nat.clog 2 xs.length = Nat.clog 2 (xs.length - xs.length / 2) + 1 := by
      rw [Nat.clog_of_two_le Nat.one_lt_two (by omega),
        show (xs.length + 2 - 1) / 2 = xs.length - xs.length / 2 by omega]
    have hsmaller : Nat.clog 2 (xs.length / 2) ≤ Nat.clog 2 (xs.length - xs.length / 2) :=
      Nat.clog_mono_right 2 (by omega)
    rw [depth, depth_ofOrdered, depth_ofOrdered, List.length_take, List.length_drop,
      Nat.min_eq_left (Nat.div_le_self _ _)]
    omega
termination_by xs.length
decreasing_by
  · rw [List.length_take]
    omega
  · rw [List.length_drop]
    omega

/-! ## Branches -/

/-- Somewhere in a tree there is a branch with the subtrees `l` and `r`. Among all objects of the
tree, those below this branch begin with number `start`. -/
inductive BranchesAt : Hierarchy β → Nat → Hierarchy β → Hierarchy β → Prop
  | root {l r} : BranchesAt (branch l r) 0 l r
  | left {l r start l' r'} : BranchesAt l start l' r' → BranchesAt (branch l r) start l' r'
  | right {l r start l' r'} :
      BranchesAt r start l' r' → BranchesAt (branch l r) (l.size + start) l' r'

variable {h l r l' r' : Hierarchy β} {start : Nat}

theorem BranchesAt.size_le (hbranch : h.BranchesAt start l r) : l.size + r.size ≤ h.size := by
  induction hbranch with
  | root => exact Nat.le_refl _
  | left _ ih => exact Nat.le_trans ih (Nat.le_add_right _ _)
  | right _ ih => exact Nat.le_trans ih (Nat.le_add_left _ _)

theorem branchesAt_branch_iff : (branch l r).BranchesAt start l' r' ↔
    (start = 0 ∧ l' = l ∧ r' = r) ∨ l.BranchesAt start l' r' ∨
      ∃ s, start = l.size + s ∧ r.BranchesAt s l' r' := by
  constructor
  · rintro (_ | h | h)
    · exact .inl ⟨rfl, rfl, rfl⟩
    · exact .inr (.inl h)
    · exact .inr (.inr ⟨_, rfl, h⟩)
  · rintro (⟨rfl, rfl, rfl⟩ | h | ⟨s, rfl, h⟩)
    · exact .root
    · exact .left h
    · exact .right h

end Hierarchy

namespace Boxed

variable [Scalar α]

/-! ## Halves -/

/-- The list before the midpoint, as grouping goes on with it. -/
def frontHalf (xs : List (Boxed α β)) : List (Boxed α β) :=
  (sortAlongBest xs).take (xs.length / 2)

def backHalf (xs : List (Boxed α β)) : List (Boxed α β) :=
  (sortAlongBest xs).drop (xs.length / 2)

/-- Grouping comes to a run of more than two objects and halves it into `front` and `back`. Among
all objects of the grouped list, those of this run begin with number `start`. -/
inductive HalvesAt : List (Boxed α β) → Nat → List (Boxed α β) → List (Boxed α β) → Prop
  | whole {xs} : 2 < xs.length → HalvesAt xs 0 (frontHalf xs) (backHalf xs)
  | front {xs start front back} : 2 < xs.length →
      HalvesAt (frontHalf xs) start front back → HalvesAt xs start front back
  | back {xs start front back} : 2 < xs.length →
      HalvesAt (backHalf xs) start front back → HalvesAt xs ((frontHalf xs).length + start) front back

variable {xs front back : List (Boxed α β)} {start : Nat}

theorem length_frontHalf (xs : List (Boxed α β)) : (frontHalf xs).length = xs.length / 2 := by
  rw [frontHalf, List.length_take, length_sortAlongBest]
  omega

theorem length_backHalf (xs : List (Boxed α β)) :
    (backHalf xs).length = xs.length - xs.length / 2 := by
  rw [backHalf, List.length_drop, length_sortAlongBest]

theorem frontHalf_ne_nil (hlong : 2 < xs.length) : frontHalf xs ≠ [] := by
  apply List.ne_nil_of_length_pos
  rw [length_frontHalf]
  omega

theorem backHalf_ne_nil (hlong : 2 < xs.length) : backHalf xs ≠ [] := by
  apply List.ne_nil_of_length_pos
  rw [length_backHalf]
  omega

theorem group_eq_append (hlong : 2 < xs.length) :
    group xs = group (frontHalf xs) ++ group (backHalf xs) :=
  group_of_two_lt_length hlong

theorem length_group (xs : List (Boxed α β)) : (group xs).length = xs.length :=
  (group_perm xs).length_eq

theorem halvesAt_iff (hlong : 2 < xs.length) : HalvesAt xs start front back ↔
    (start = 0 ∧ front = frontHalf xs ∧ back = backHalf xs) ∨
      HalvesAt (frontHalf xs) start front back ∨
      ∃ s, start = (frontHalf xs).length + s ∧ HalvesAt (backHalf xs) s front back := by
  constructor
  · rintro (_ | ⟨_, h⟩ | ⟨_, h⟩)
    · exact .inl ⟨rfl, rfl, rfl⟩
    · exact .inr (.inl h)
    · exact .inr (.inr ⟨_, rfl, h⟩)
  · rintro (⟨rfl, rfl, rfl⟩ | h | ⟨s, rfl, h⟩)
    · exact .whole hlong
    · exact .front hlong h
    · exact .back hlong h

theorem HalvesAt.two_lt_length (h : HalvesAt xs start front back) : 2 < xs.length := by
  cases h with
  | whole hlong => exact hlong
  | front hlong => exact hlong
  | back hlong => exact hlong

/-- A run is halved at its midpoint, into parts that are not empty. -/
theorem HalvesAt.length_eq (h : HalvesAt xs start front back) :
    2 < front.length + back.length ∧ front.length = (front.length + back.length) / 2 := by
  induction h with
  | @whole xs hlong =>
      rw [length_frontHalf, length_backHalf]
      omega
  | front _ _ ih => exact ih
  | back _ _ ih => exact ih

/-! ## The tree over a grouped list -/

theorem map_object_group_ne_nil (hne : xs ≠ []) : (group xs).map object ≠ [] := by
  rw [← List.length_pos_iff, List.length_map, length_group, List.length_pos_iff]
  exact hne

/-- The tree over the objects of a list in their grouped order. -/
def medianTree (xs : List (Boxed α β)) (hne : xs ≠ []) : Hierarchy β :=
  .ofOrdered ((group xs).map object) (map_object_group_ne_nil hne)

theorem toList_medianTree (hne : xs ≠ []) :
    (medianTree xs hne).toList = (group xs).map object :=
  Hierarchy.toList_ofOrdered _ _

theorem size_medianTree (hne : xs ≠ []) : (medianTree xs hne).size = xs.length := by
  rw [Hierarchy.size_eq_length_toList, toList_medianTree, List.length_map, length_group]

/-- Grouping does not move an object across the midpoint any more once it has halved the list. -/
theorem medianTree_eq_branch (hlong : 2 < xs.length) (hne : xs ≠ []) :
    medianTree xs hne =
      .branch (medianTree (frontHalf xs) (frontHalf_ne_nil hlong))
        (medianTree (backHalf xs) (backHalf_ne_nil hlong)) := by
  have hlength : ((group xs).map object).length / 2 = ((group (frontHalf xs)).map object).length := by
    rw [List.length_map, List.length_map, length_group, length_group, length_frontHalf]
  have hsplit : (group xs).map object =
      (group (frontHalf xs)).map object ++ (group (backHalf xs)).map object := by
    rw [group_eq_append hlong, List.map_append]
  have hfront : ((group xs).map object).take (((group xs).map object).length / 2) =
      (group (frontHalf xs)).map object := by
    rw [hlength, hsplit, List.take_left]
  have hback : ((group xs).map object).drop (((group xs).map object).length / 2) =
      (group (backHalf xs)).map object := by
    rw [hlength, hsplit, List.drop_left]
  have htwo : 1 < ((group xs).map object).length := by
    rw [List.length_map, length_group]
    omega
  unfold medianTree
  rw [Hierarchy.ofOrdered_of_one_lt_length _ htwo
    (by rw [hfront]; exact map_object_group_ne_nil (frontHalf_ne_nil hlong))
    (by rw [hback]; exact map_object_group_ne_nil (backHalf_ne_nil hlong))]
  simp only [hfront, hback]

/-- The branches over more than two objects are where grouping has halved the list. -/
theorem branchesAt_medianTree_iff {xs : List (Boxed α β)} {start : Nat} {l r : Hierarchy β}
    (hne : xs ≠ []) (hsize : 2 < l.size + r.size) : (medianTree xs hne).BranchesAt start l r ↔
      ∃ front back, ∃ (hfront : front ≠ []) (hback : back ≠ []), HalvesAt xs start front back ∧
        l = medianTree front hfront ∧ r = medianTree back hback := by
  by_cases hlong : 2 < xs.length
  · have hfront : ∀ s, (medianTree _ (frontHalf_ne_nil hlong)).BranchesAt s l r ↔ _ :=
      fun s => branchesAt_medianTree_iff _ hsize
    have hback : ∀ s, (medianTree _ (backHalf_ne_nil hlong)).BranchesAt s l r ↔ _ :=
      fun s => branchesAt_medianTree_iff _ hsize
    rw [medianTree_eq_branch hlong, Hierarchy.branchesAt_branch_iff, size_medianTree]
    simp only [hfront, hback, halvesAt_iff hlong]
    constructor
    · rintro (⟨rfl, rfl, rfl⟩ | ⟨f, b, hf, hb, h, rfl, rfl⟩ | ⟨s, rfl, f, b, hf, hb, h, rfl, rfl⟩)
      · exact ⟨_, _, frontHalf_ne_nil hlong, backHalf_ne_nil hlong, .inl ⟨rfl, rfl, rfl⟩, rfl, rfl⟩
      · exact ⟨f, b, hf, hb, .inr (.inl h), rfl, rfl⟩
      · exact ⟨f, b, hf, hb, .inr (.inr ⟨s, rfl, h⟩), rfl, rfl⟩
    · rintro ⟨f, b, hf, hb, ⟨rfl, rfl, rfl⟩ | h | ⟨s, rfl, h⟩, rfl, rfl⟩
      · exact .inl ⟨rfl, rfl, rfl⟩
      · exact .inr (.inl ⟨f, b, hf, hb, h, rfl, rfl⟩)
      · exact .inr (.inr ⟨s, rfl, f, b, hf, hb, h, rfl, rfl⟩)
  · constructor
    · intro hbranch
      have hle := hbranch.size_le
      rw [size_medianTree] at hle
      exact absurd (Nat.lt_of_lt_of_le hsize hle) hlong
    · rintro ⟨front, back, -, -, hhalves, -⟩
      exact absurd hhalves.two_lt_length hlong
termination_by xs.length
decreasing_by
  · rw [length_frontHalf]
    omega
  · rw [length_backHalf]
    omega

end Boxed

namespace Hierarchy

open Boxed

variable [Scalar α]

theorem ofMedians?_eq_medianTree (box : β → Box α) {xs : List β} (hne : boxed box xs ≠ []) :
    ofMedians? box xs = some (medianTree (boxed box xs) hne) := by
  rw [ofMedians?]
  exact dif_neg (map_object_group_ne_nil hne)

/-- The tree of medians over any list of objects but the empty one has the least depth that a tree
with so many leaves can have. Its leaves are in the grouped order. Every branch over more than two
leaves joins the halves of the run that grouping has cut there at its midpoint, and there is such a
branch for every run that grouping cuts. -/
theorem ofMedians?_least_depth (box : β → Box α) {xs : List β} (hne : xs ≠ []) :
    ∃ h, ofMedians? box xs = some h ∧ h.depth = 1 + Nat.clog 2 xs.length ∧
      (∀ (γ : Type) (t : Hierarchy γ), t.size = xs.length → h.depth ≤ t.depth) ∧
      h.leaves = groupByBoxes box xs ∧
      (∀ start l r, h.BranchesAt start l r → 2 < l.size + r.size →
        l.size = (l.size + r.size) / 2 ∧
          ∃ front back, HalvesAt (boxed box xs) start front back ∧
            l.toList = (group front).map object ∧ r.toList = (group back).map object) ∧
      ∀ start front back, HalvesAt (boxed box xs) start front back →
        ∃ l r, h.BranchesAt start l r ∧
          l.toList = (group front).map object ∧ r.toList = (group back).map object := by
  have hboxed : boxed box xs ≠ [] := by simpa [boxed] using hne
  have hlength : ((group (boxed box xs)).map object).length = xs.length := by
    rw [List.length_map, length_group, boxed, List.length_map]
  have hdepth : (medianTree (boxed box xs) hboxed).depth = 1 + Nat.clog 2 xs.length := by
    rw [medianTree, depth_ofOrdered, hlength]
  refine ⟨_, ofMedians?_eq_medianTree box hboxed, hdepth, fun γ t ht => ?_, ?_,
    fun start l r hbranch hsize => ?_, fun start front back hhalves => ?_⟩
  · rw [hdepth, ← ht]
    exact t.one_add_clog_size_le
  · rw [leaves_eq_toList, toList_medianTree]
    rfl
  · obtain ⟨front, back, hf, hb, hhalves, rfl, rfl⟩ :=
      (branchesAt_medianTree_iff hboxed hsize).mp hbranch
    rw [size_medianTree, size_medianTree]
    exact ⟨hhalves.length_eq.2, front, back, hhalves, toList_medianTree hf, toList_medianTree hb⟩
  · have hlengths := hhalves.length_eq
    have hf : front ≠ [] := List.ne_nil_of_length_pos (by omega)
    have hb : back ≠ [] := List.ne_nil_of_length_pos (by omega)
    refine ⟨medianTree front hf, medianTree back hb, ?_, toList_medianTree hf, toList_medianTree hb⟩
    refine (branchesAt_medianTree_iff hboxed ?_).mpr ⟨front, back, hf, hb, hhalves, rfl, rfl⟩
    rw [size_medianTree, size_medianTree]
    exact hlengths.1

theorem ofMedians?_least_depth_oddBoxes : oddBoxes ≠ [] ∧
    ∃ h, ofMedians? id oddBoxes = some h ∧ h.depth = 4 ∧
      (∀ t : Hierarchy (Box Float), t.size = 5 → 4 ≤ t.depth) ∧
      ∃ l r, h.BranchesAt 0 l r ∧ l.size = 2 ∧ r.size = 3 := by
  have hne : oddBoxes ≠ [] := List.cons_ne_nil _ _
  obtain ⟨h, hbuilt, hdepth, hleast, -, -, hbranches⟩ := ofMedians?_least_depth id hne
  have hfour : 1 + Nat.clog 2 oddBoxes.length = 4 := by decide
  rw [hfour] at hdepth
  obtain ⟨l, r, hbranch, hl, hr⟩ := hbranches _ _ _ (HalvesAt.whole (by decide))
  refine ⟨hne, h, hbuilt, hdepth, fun t ht => hdepth ▸ hleast _ t ht, l, r, hbranch, ?_, ?_⟩
  · rw [size_eq_length_toList, hl, List.length_map, length_group, length_frontHalf]
    rfl
  · rw [size_eq_length_toList, hr, List.length_map, length_group, length_backHalf]
    rfl

end Hierarchy

end SolidSurface
