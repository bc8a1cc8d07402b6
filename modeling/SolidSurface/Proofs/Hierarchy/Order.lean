import SolidSurface.Proofs.Binary64.Extents
import SolidSurface.Proofs.Hierarchy.Objects

/-! # Objects in the order of their middles

Middles are compared by a total order on all floats, so any objects can be sorted. That a list is
sorted leaves open in which order objects of the same middle come, and with it which of them are in
the first part when the list is cut among them. Cut elsewhere, the parts hold the same objects
however the list was sorted. Only one sorted list keeps the order that such objects had before.
-/

namespace SolidSurface

variable {β γ : Type}

/-! ## The first of the best axes -/

/-- Position of an axis among all axes. -/
def Axis.index : Axis → Nat
  | .x => 0
  | .y => 1
  | .z => 2

/-- The first axis of the least value, when the axes are tried one after another. -/
def Axis.firstLeast (u : Axis → ℤ) : Axis :=
  if u .z < min (u .x) (u .y) then .z else if u .y < u .x then .y else .x

theorem Axis.firstLeast_le (u : Axis → ℤ) (a : Axis) : u (firstLeast u) ≤ u a := by
  rw [firstLeast]
  split_ifs <;> cases a <;> omega

theorem Axis.index_firstLeast_le {u : Axis → ℤ} {a : Axis} (h : u a ≤ u (firstLeast u)) :
    (firstLeast u).index ≤ a.index := by
  rw [firstLeast] at h ⊢
  split_ifs at h ⊢ <;> cases a <;> simp only [index] <;> omega

/-! ## Sorted lists -/

/-- Every element before the cut is strictly below every one after it. -/
def SeparatedAt (le : γ → γ → Bool) (n : Nat) (xs : List γ) : Prop :=
  ∀ u ∈ xs.take n, ∀ v ∈ xs.drop n, le v u = false

section Sorted

variable {le : γ → γ → Bool} (htrans : ∀ a b c, le a b = true → le b c = true → le a c = true)
  (htotal : ∀ a b, (le a b || le b a) = true)

include htrans in
/-- In a sorted list those below some element come first. -/
theorem filter_lt_eq_take {xs : List γ} (hxs : xs.Pairwise fun a b => le a b = true) (w : γ) :
    xs.filter (fun u => !le w u) = xs.take (xs.filter fun u => !le w u).length := by
  induction xs with
  | nil => rfl
  | cons x xs ih =>
      obtain ⟨hx, hxs⟩ := List.pairwise_cons.mp hxs
      by_cases hw : le w x = true
      · have hnone : (x :: xs).filter (fun u => !le w u) = [] := by
          refine List.filter_eq_nil_iff.mpr fun u hu => ?_
          have hwu : le w u = true := by
            rcases List.mem_cons.mp hu with rfl | hu
            · exact hw
            · exact htrans w x u hw (hx u hu)
          simp [hwu]
        rw [hnone, List.length_nil, List.take_zero]
      · rw [List.filter_cons_of_pos (by simpa using hw), List.length_cons, List.take_succ_cons,
          ← ih hxs]

include htrans htotal in
/-- The first parts of two sorted lists of the same elements, if the cut of one separates them. -/
theorem take_perm_take_of_separatedAt {xs ys : List γ} (hperm : xs.Perm ys)
    (hxs : xs.Pairwise fun a b => le a b = true) (hys : ys.Pairwise fun a b => le a b = true)
    {n : Nat} (hn : n < xs.length) (hsep : SeparatedAt le n xs) : (xs.take n).Perm (ys.take n) := by
  obtain ⟨w, hdrop⟩ : ∃ w, xs.drop n = w :: xs.drop (n + 1) := ⟨_, List.drop_eq_getElem_cons hn⟩
  have hbefore : (xs.take n).filter (fun u => !le w u) = xs.take n := by
    refine List.filter_eq_self.mpr fun u hu => ?_
    rw [hsep u hu w (hdrop ▸ List.mem_cons_self), Bool.not_false]
  have hafter : (xs.drop n).filter (fun u => !le w u) = [] := by
    refine List.filter_eq_nil_iff.mpr fun v hv => ?_
    have hle : le w v = true := by
      have hsorted : (xs.drop n).Pairwise fun a b => le a b = true := hxs.drop
      rw [hdrop] at hsorted hv
      rcases List.mem_cons.mp hv with rfl | hv
      · simpa using htotal v v
      · exact List.rel_of_pairwise_cons hsorted hv
    simp [hle]
  have hfilter : xs.filter (fun u => !le w u) = xs.take n := by
    conv_lhs => rw [← List.take_append_drop n xs, List.filter_append]
    rw [hbefore, hafter, List.append_nil]
  have hlength : (ys.filter fun u => !le w u).length = n := by
    rw [← (hperm.filter _).length_eq, hfilter, List.length_take, min_eq_left hn.le]
  have htake := filter_lt_eq_take htrans hys w
  rw [hlength] at htake
  rw [← hfilter, ← htake]
  exact hperm.filter _

include htotal in
/-- Sorted lists that agree on the elements of every place in the order are the same. -/
theorem eq_of_sorted_of_filter_eq {xs ys : List γ} (hperm : xs.Perm ys)
    (hxs : xs.Pairwise fun a b => le a b = true) (hys : ys.Pairwise fun a b => le a b = true)
    (hfilter : ∀ w, xs.filter (fun u => le u w && le w u) = ys.filter fun u => le u w && le w u) :
    xs = ys := by
  induction xs generalizing ys with
  | nil => exact hperm.nil_eq
  | cons x xs ih =>
      obtain _ | ⟨y, ys⟩ := ys
      · exact hperm.eq_nil
      have hself : ∀ u, le u u = true := fun u => by simpa using htotal u u
      have hbelow : le x y = true := by
        rcases List.mem_cons.mp (hperm.mem_iff.mpr List.mem_cons_self) with rfl | hy
        · exact hself y
        · exact List.rel_of_pairwise_cons hxs hy
      have habove : le y x = true := by
        rcases List.mem_cons.mp (hperm.mem_iff.mp List.mem_cons_self) with rfl | hx
        · exact hself x
        · exact List.rel_of_pairwise_cons hys hx
      obtain rfl : x = y := by
        have hheads := hfilter x
        rw [List.filter_cons_of_pos (by simp [hself]),
          List.filter_cons_of_pos (by simp [hbelow, habove])] at hheads
        exact (List.cons.inj hheads).1
      refine congrArg _ (ih hperm.cons_inv hxs.of_cons hys.of_cons fun w => ?_)
      have htails := hfilter w
      rw [List.filter_cons, List.filter_cons] at htails
      split at htails
      · exact (List.cons.inj htails).2
      · exact htails

theorem drop_perm_drop_of_take_perm_take {xs ys : List γ} (hperm : xs.Perm ys) {n : Nat}
    (htake : (xs.take n).Perm (ys.take n)) : (xs.drop n).Perm (ys.drop n) := by
  have hsplit : (xs.take n ++ xs.drop n).Perm (ys.take n ++ ys.drop n) := by
    rwa [List.take_append_drop, List.take_append_drop]
  exact (List.perm_append_left_iff _).mp ((htake.append_right _).symm.trans hsplit)

end Sorted

/-! ## Order by middles -/

namespace Boxed

open Binary64

variable (a : Axis)

theorem middleLE_iff (b c : Boxed Float β) : middleLE a b c = true ↔
    isIndefinite b.box a = true ∨ isIndefinite c.box a = false ∧
      orderBits (middle b.box a) ≤ orderBits (middle c.box a) := by
  simp only [middleLE, Bool.or_eq_true, Bool.and_eq_true, Bool.not_eq_true']
  exact or_congr_right (and_congr_right fun _ => decide_eq_true_iff)

theorem middleLE_trans (b c d : Boxed Float β) (h : middleLE a b c = true)
    (h' : middleLE a c d = true) : middleLE a b d = true := by
  rw [middleLE_iff] at h h' ⊢
  rcases h with hb | ⟨hc, hbc⟩
  · exact .inl hb
  · rcases h' with hc' | ⟨hd, hcd⟩
    · rw [hc] at hc'
      cases hc'
    · exact .inr ⟨hd, UInt64.le_trans hbc hcd⟩

theorem middleLE_total (b c : Boxed Float β) : (middleLE a b c || middleLE a c b) = true := by
  rw [Bool.or_eq_true, middleLE_iff, middleLE_iff]
  cases hb : isIndefinite b.box a with
  | true => exact .inl (.inl rfl)
  | false =>
      cases hc : isIndefinite c.box a with
      | true => exact .inr (.inl rfl)
      | false =>
          rcases UInt64.le_total (orderBits (middle b.box a)) (orderBits (middle c.box a)) with h | h
          · exact .inl (.inr ⟨rfl, h⟩)
          · exact .inr (.inr ⟨rfl, h⟩)

theorem sortAlong_sorted (xs : List (Boxed Float β)) :
    (sortAlong a xs).Pairwise fun b c => middleLE a b c = true :=
  List.pairwise_mergeSort (middleLE_trans a) (middleLE_total a) xs

/-! ## Boxes around objects -/

variable {xs ys : List (Boxed Float β)}

/-- The boxes of all objects have numbers for coordinates. -/
def AllNumeric (xs : List (Boxed Float β)) : Prop :=
  ∀ x ∈ xs, x.box.IsNumeric

theorem AllNumeric.of_subset (h : AllNumeric xs) (hsub : ys ⊆ xs) : AllNumeric ys :=
  fun y hy => h y (hsub hy)

theorem AllNumeric.map_box (h : AllNumeric xs) : ∀ b ∈ xs.map box, b.IsNumeric := by
  intro b hb
  obtain ⟨x, hx, rfl⟩ := List.mem_map.mp hb
  exact h x hx

theorem allNumeric_boxed {boxOf : γ → Box Float} {objects : List γ}
    (h : ∀ o ∈ objects, (boxOf o).IsNumeric) : AllNumeric (boxed boxOf objects) := by
  intro x hx
  obtain ⟨o, ho, rfl⟩ := List.mem_map.mp hx
  exact h o ho

/-- The surface of the box around some objects is the same in every order of them. -/
theorem surfaceArea_boundsOf_alike (h : AllNumeric xs) (hperm : xs.Perm ys) :
    Alike (boundsOf xs).surfaceArea (boundsOf ys).surfaceArea :=
  Box.surfaceArea_alike (Box.isNumeric_unionAll h.map_box)
    (Box.isNumeric_unionAll (h.of_subset hperm.symm.subset).map_box)
    (Box.extent_unionAll_perm h.map_box (hperm.map box))

end Boxed

end SolidSurface
