import SolidSurface.Proofs.Hierarchy.Medians

/-! # The best cuts

All cuts of a list along one axis are scored in one sweep from either end. The boxes behind a cut are
united from the last to the first, and since neither order nor grouping shows in the surface of a
union, the scores are those of the two parts united in their own order. Offered one after another,
the last of the best cuts along an axis stays, and of the axes the first.
-/

namespace SolidSurface

open Binary64

variable {α β : Type}

namespace Boxed

section Scalar

variable [Scalar α]

/-! ## Scores -/

/-- Surfaces of the first `s` objects and of the others, weighted with their numbers. -/
def cutScore (xs : List (Boxed α β)) (s : Nat) : α :=
  (boundsOf (xs.take s)).surfaceArea * Scalar.ofNat s +
    (boundsOf (xs.drop s)).surfaceArea * Scalar.ofNat (xs.length - s)

/-- The score as the sweep finds it, coming to the others from the end. -/
def sweptScore (xs : List (Boxed α β)) (s : Nat) : α :=
  (boundsOf (xs.take s)).surfaceArea * Scalar.ofNat s +
    (boundsOf (xs.drop s).reverse).surfaceArea * Scalar.ofNat (xs.length - s)

theorem getElem_runningUnions (acc : Box α) (bs : List (Box α)) (i : Nat)
    (h : i < (runningUnions acc bs).length) :
    (runningUnions acc bs)[i] = (bs.take (i + 1)).foldl Box.union acc := by
  induction bs generalizing acc i with
  | nil => exact absurd h (Nat.not_lt_zero i)
  | cons b bs ih =>
      cases i with
      | zero => rfl
      | succ i =>
          simp only [runningUnions, List.getElem_cons_succ, List.take_succ_cons, List.foldl_cons]
          exact ih (acc.union b) i _

/-- The sweep scores every cut that leaves something on both sides. -/
theorem cutScores_eq (xs : List (Boxed α β)) :
    cutScores xs.length (xs.map box) =
      (List.range' 1 (xs.length - 1)).map fun s => (s, sweptScore xs s) := by
  refine List.ext_getElem ?_ fun i h h' => ?_
  · simp [cutScores, length_runningUnions]
  · have hi : i + 1 < xs.length := by
      rw [List.length_map, List.length_range'] at h'
      omega
    have hbehind : xs.length - (xs.length - 1 - (i + 1) + 1) = i + 1 := by omega
    simp only [cutScores, List.getElem_map, List.getElem_zipIdx, List.getElem_zip,
      List.getElem_tail, List.getElem_reverse, getElem_runningUnions, length_runningUnions,
      List.length_reverse, List.length_map, List.take_reverse, hbehind, List.getElem_range',
      sweptScore, boundsOf, Box.unionAll, List.map_take, List.map_drop, List.map_reverse]
    rw [Nat.zero_add, Nat.one_mul, Nat.add_comm 1 i]

theorem bestCut_eq (xs : List (Boxed α β)) :
    bestCut xs = ((List.range' 1 (xs.length - 1)).map fun s => (s, sweptScore xs s)).foldl
      Cut.offer ⟨.infinity, 1⟩ := by
  rw [bestCut, cutScores_eq]

end Scalar

/-! ## The last of the best cuts -/

/-- A cut of least score among those before the first `n + 1` objects end, and none after it is as
good. -/
structure Cut.IsLastLeast (score : Nat → Float) (n : Nat) (c : Cut Float) : Prop where
  score_eq : c.score = .val (score c.index)
  pos : 0 < c.index
  le : c.index ≤ n
  least : ∀ t, 0 < t → t ≤ n → score c.index ≤ score t
  last : ∀ t, 0 < t → t ≤ n → score t ≤ score c.index → t ≤ c.index

variable {score : Nat → Float} {n : Nat} {c : Cut Float}

theorem Cut.IsLastLeast.offer (h : c.IsLastLeast score n)
    (hnumber : ∀ t, 0 < t → t ≤ n + 1 → (score t == score t) = true) :
    (c.offer (n + 1, score (n + 1))).IsLastLeast score (n + 1) := by
  have hnew := hnumber (n + 1) n.succ_pos le_rfl
  have hold := hnumber c.index h.pos (h.le.trans n.le_succ)
  have hoffer : (Extended.val (score (n + 1))).le c.score = true ↔
      score (n + 1) ≤ score c.index := by
    rw [h.score_eq]
    exact decide_eq_true_iff
  by_cases hle : score (n + 1) ≤ score c.index
  · rw [Cut.offer, if_pos (hoffer.mpr hle)]
    refine ⟨rfl, n.succ_pos, le_rfl, fun t ht ht' => ?_, fun t _ ht' _ => ht'⟩
    rcases Nat.le_or_eq_of_le_succ ht' with ht' | rfl
    · exact le_trans hle (h.least t ht ht')
    · exact (le_total_of_beq_self hnew hnew).elim id id
  · rw [Cut.offer, if_neg (mt hoffer.mp hle)]
    have hkept := (le_total_of_beq_self hold hnew).resolve_right hle
    refine ⟨h.score_eq, h.pos, h.le.trans n.le_succ, fun t ht ht' => ?_, fun t ht ht' htie => ?_⟩
    · rcases Nat.le_or_eq_of_le_succ ht' with ht' | rfl
      · exact h.least t ht ht'
      · exact hkept
    · rcases Nat.le_or_eq_of_le_succ ht' with ht' | rfl
      · exact h.last t ht ht' htie
      · exact absurd htie hle

theorem foldl_offer_isLastLeast (hn : 0 < n)
    (hnumber : ∀ t, 0 < t → t ≤ n → (score t == score t) = true) :
    (((List.range' 1 n).map fun s => (s, score s)).foldl Cut.offer ⟨.infinity, 1⟩).IsLastLeast
      score n := by
  induction n, hn using Nat.le_induction with
  | base =>
      have hone := hnumber 1 Nat.one_pos le_rfl
      have hfirst : ((List.range' 1 1).map fun s => (s, score s)).foldl Cut.offer ⟨.infinity, 1⟩ =
          ⟨.val (score 1), 1⟩ :=
        if_pos hone
      rw [hfirst]
      refine ⟨rfl, Nat.one_pos, le_rfl, fun t ht ht' => ?_, fun t _ ht' _ => ht'⟩
      rw [show t = 1 by omega]
      exact (le_total_of_beq_self hone hone).elim id id
  | succ n hn ih =>
      rw [List.range'_1_concat, List.map_append, List.foldl_append, Nat.add_comm 1 n]
      exact (ih fun t ht ht' => hnumber t ht (ht'.trans n.le_succ)).offer hnumber

/-! ## The best cut along any axis -/

/-- A cut of least score among all cuts along all axes of a list of `n` objects; along no axis
before, and after no further object, is there one as good. -/
structure IsBestCut (score : Axis → Nat → Float) (n : Nat) (a : Axis) (s : Nat) : Prop where
  least : ∀ b t, 0 < t → t < n → score a s ≤ score b t
  first : ∀ b t, 0 < t → t < n → score b t ≤ score a s → a.index ≤ b.index
  last : ∀ t, 0 < t → t < n → score a t ≤ score a s → t ≤ s

theorem IsBestCut.congr {score score' : Axis → Nat → Float} {a : Axis} {s : Nat}
    (halike : ∀ b t, Alike (score b t) (score' b t)) (h : IsBestCut score n a s) :
    IsBestCut score' n a s where
  least b t ht ht' := ((halike a s).le_iff (halike b t)).mp (h.least b t ht ht')
  first b t ht ht' htie := h.first b t ht ht' (((halike b t).le_iff (halike a s)).mpr htie)
  last t ht ht' htie := h.last t ht ht' (((halike a t).le_iff (halike a s)).mpr htie)

/-- Of the best cuts along each axis the one along the first best axis. -/
theorem isBestCut_firstLeast {score : Axis → Nat → Float} {best : Axis → Cut Float} {u : Axis → ℤ}
    (hbest : ∀ b, (best b).IsLastLeast (score b) (n - 1))
    (hu : ∀ b, units? (score b (best b).index) = some (u b)) :
    IsBestCut score n (Axis.firstLeast u) (best (Axis.firstLeast u)).index := by
  have hle : ∀ b c, score b (best b).index ≤ score c (best c).index ↔ u b ≤ u c :=
    fun b c => le_iff_of_units (hu b) (hu c)
  refine ⟨fun b t ht ht' => ?_, fun b t ht ht' htie => ?_, fun t ht ht' htie => ?_⟩
  · exact le_trans ((hle _ b).mpr (Axis.firstLeast_le u b)) ((hbest b).least t ht (by omega))
  · refine Axis.index_firstLeast_le ((hle b _).mp ?_)
    exact le_trans ((hbest b).least t ht (by omega)) htie
  · exact (hbest _).last t ht (by omega) htie

variable {xs ys : List (Boxed Float β)}

theorem sweptScore_alike (h : AllNumeric xs) (s : Nat) :
    Alike (sweptScore xs s) (cutScore xs s) := by
  have hbehind : Alike (boundsOf (xs.drop s).reverse).surfaceArea
      (boundsOf (xs.drop s)).surfaceArea :=
    (surfaceArea_boundsOf_alike (h.of_subset (List.drop_subset _ _)) (List.reverse_perm _).symm).symm
  exact (Alike.refl _).add (hbehind.mul (.refl _))

theorem AxisCut.offer_eq_ite {best other : AxisCut Float n} {u v : ℤ}
    (hu : best.cut.score.units? = some u) (hv : other.cut.score.units? = some v) :
    best.offer other = if v < u then other else best := by
  rw [AxisCut.offer]
  exact if_congr (Extended.lt_iff_of_units hv hu) rfl rfl

/-- The best cut of a list along each axis. -/
def bestAlong (xs : List (Boxed Float β)) (a : Axis) : Cut Float :=
  bestCut (sortAlong a xs)

theorem cut_cutAlong (xs : List (Boxed Float β)) (a : Axis) :
    (cutAlong xs.toArray a).cut = bestAlong xs a := by
  rw [cutAlong, objectsAt_orderAlong, bestAlong]

theorem leastAxisCut_eq {u : Axis → ℤ}
    (hu : ∀ a, (bestAlong xs a).score.units? = some (u a)) :
    leastAxisCut xs.toArray = cutAlong xs.toArray (Axis.firstLeast u) := by
  replace hu : ∀ a, (cutAlong xs.toArray a).cut.score.units? = some (u a) :=
    fun a => cut_cutAlong xs a ▸ hu a
  have hxy : (cutAlong xs.toArray .x).offer (cutAlong xs.toArray .y) =
      cutAlong xs.toArray (if u .y < u .x then .y else .x) := by
    rw [AxisCut.offer_eq_ite (hu .x) (hu .y)]
    split <;> rfl
  rw [leastAxisCut, hxy, AxisCut.offer_eq_ite (hu _) (hu .z), Axis.firstLeast]
  split_ifs <;> first | rfl | omega

/-- All cuts of a list of `n` objects, in its order along each axis, have numbers for scores. -/
def ScoresNumeric (order : Axis → List (Boxed Float β)) (n : Nat) : Prop :=
  ∀ a s, 0 < s → s < n → (cutScore (order a) s == cutScore (order a) s) = true

theorem bestAlong_isLastLeast (h : AllNumeric xs) (hlong : 2 ≤ xs.length)
    (hscores : ScoresNumeric (fun b => sortAlong b xs) xs.length) (a : Axis) :
    (bestAlong xs a).IsLastLeast (sweptScore (sortAlong a xs)) (xs.length - 1) := by
  have hsorted : AllNumeric (sortAlong a xs) := h.of_subset (sortAlong_perm a xs).subset
  rw [bestAlong, bestCut_eq, length_sortAlong]
  refine foldl_offer_isLastLeast (by omega) fun t ht ht' => ?_
  rw [(sweptScore_alike hsorted t).beq_eq (sweptScore_alike hsorted t)]
  exact hscores a t ht (by omega)

/-- The first of the axes with the best cuts is taken, and along it the last of them. -/
theorem exists_isBestCut (h : AllNumeric xs) (hlong : 2 ≤ xs.length)
    (hscores : ScoresNumeric (fun b => sortAlong b xs) xs.length) :
    ∃ a, leastAxisCut xs.toArray = cutAlong xs.toArray a ∧
      IsBestCut (fun b => cutScore (sortAlong b xs)) xs.length a (bestAlong xs a).index := by
  have hbest := bestAlong_isLastLeast h hlong hscores
  have halike : ∀ b t, Alike (sweptScore (sortAlong b xs) t) (cutScore (sortAlong b xs) t) :=
    fun b => sweptScore_alike (h.of_subset (sortAlong_perm b xs).subset)
  have hu : ∀ b, units? (sweptScore (sortAlong b xs) (bestAlong xs b).index) =
      some (countUnits (cutScore (sortAlong b xs) (bestAlong xs b).index)) := by
    intro b
    have hle := (hbest b).le
    exact (halike b _).trans (units?_eq_some (hscores b _ (hbest b).pos (by omega)))
  refine ⟨_, leastAxisCut_eq fun b => ?_, (isBestCut_firstLeast hbest hu).congr halike⟩
  rw [(hbest b).score_eq]
  exact hu b

/-! ## The tree of the best cuts -/

/-- A list in the order of the middles along an axis, in which objects of the same middle have kept
their order. -/
structure IsStableOrder (a : Axis) (xs ys : List (Boxed Float β)) : Prop where
  perm : ys.Perm xs
  sorted : ys.Pairwise fun b c => middleLE a b c = true
  stable : ∀ w, ys.filter (fun b => middleLE a b w && middleLE a w b) =
    xs.filter fun b => middleLE a b w && middleLE a w b

theorem sortAlong_isStableOrder (a : Axis) (xs : List (Boxed Float β)) :
    IsStableOrder a xs (sortAlong a xs) where
  perm := sortAlong_perm a xs
  sorted := sortAlong_sorted a xs
  stable w := by
    set same : Boxed Float β → Bool := fun b => middleLE a b w && middleLE a w b
    have hsorted : (xs.filter same).Pairwise fun b c => middleLE a b c = true := by
      refine List.pairwise_of_forall_mem_list fun b hb c hc => ?_
      have hb' := Bool.and_eq_true_iff.mp (List.mem_filter.mp hb).2
      have hc' := Bool.and_eq_true_iff.mp (List.mem_filter.mp hc).2
      exact middleLE_trans a b w c hb'.1 hc'.2
    have hsublist : (xs.filter same).Sublist (sortAlong a xs) :=
      List.sublist_mergeSort (middleLE_trans a) (middleLE_total a) hsorted List.filter_sublist
    have hkept := hsublist.filter same
    simp only [List.filter_filter, Bool.and_self] at hkept
    exact (hkept.eq_of_length ((sortAlong_perm a xs).filter same).length_eq.symm).symm

/-- There is one such order only. -/
theorem IsStableOrder.eq_sortAlong {a : Axis} (h : IsStableOrder a xs ys) :
    ys = sortAlong a xs := by
  have h' := sortAlong_isStableOrder a xs
  exact eq_of_sorted_of_filter_eq (middleLE_total a) (h.perm.trans h'.perm.symm) h.sorted h'.sorted
    fun w => (h.stable w).trans (h'.stable w).symm

/-- A tree that cuts lists of more than two objects where their best cut is, and halves the others.
A cut is the best one if all cuts of the list have numbers for scores. -/
inductive CutsBest : List (Boxed Float β) → Hierarchy (Boxed Float β) → Prop
  | few {xs : List (Boxed Float β)} (hne : xs ≠ []) :
      xs.length ≤ 2 → CutsBest xs (.ofOrdered xs hne)
  | cut {xs : List (Boxed Float β)} {l r : Hierarchy (Boxed Float β)} {a : Axis} {s : Nat}
      {order : Axis → List (Boxed Float β)} :
      2 < xs.length → (∀ b, IsStableOrder b xs (order b)) → 0 < s → s < xs.length →
      (ScoresNumeric order xs.length → IsBestCut (fun b => cutScore (order b)) xs.length a s) →
      l.toList.Perm ((order a).take s) → r.toList.Perm ((order a).drop s) →
      CutsBest ((order a).take s) l → CutsBest ((order a).drop s) r → CutsBest xs (.branch l r)

theorem cutsBest_hierarchy (xs : List (Boxed Float β)) (h : AllNumeric xs) (hne : xs ≠ []) :
    CutsBest xs (hierarchy xs hne) := by
  rw [hierarchy]
  split
  · rename_i hshort
    exact .few hne hshort
  · rename_i hlong
    obtain ⟨a, hcut, hbest⟩ : ∃ a, leastAxisCut xs.toArray = cutAlong xs.toArray a ∧
        (ScoresNumeric (fun b => sortAlong b xs) xs.length →
          IsBestCut (fun b => cutScore (sortAlong b xs)) xs.length a (bestAlong xs a).index) := by
      by_cases hscores : ScoresNumeric (fun b => sortAlong b xs) xs.length
      · obtain ⟨a, hcut, hbest⟩ := exists_isBestCut h (by omega) hscores
        exact ⟨a, hcut, fun _ => hbest⟩
      · obtain ⟨a, hcut⟩ := leastAxisCut_eq_cutAlong xs.toArray
        exact ⟨a, hcut, fun hscores' => absurd hscores' hscores⟩
    have hindex : 0 < (bestAlong xs a).index ∧ (bestAlong xs a).index < xs.length := by
      rw [← length_sortAlong a xs]
      exact index_bestCut (by rw [length_sortAlong]; omega)
    have hlength := length_sortAlong a xs
    have hsorted : AllNumeric (sortAlong a xs) := h.of_subset (sortAlong_perm a xs).subset
    simp only [bestParts_eq hcut, List.splitAt_eq]
    exact .cut (by omega) (fun b => sortAlong_isStableOrder b xs) hindex.1 hindex.2 hbest
      (toList_hierarchy_perm _ _) (toList_hierarchy_perm _ _)
      (cutsBest_hierarchy _ (hsorted.of_subset (List.take_subset _ _)) _)
      (cutsBest_hierarchy _ (hsorted.of_subset (List.drop_subset _ _)) _)
termination_by xs.length
decreasing_by
  · rw [List.length_take]
    omega
  · rw [List.length_drop]
    omega

end Boxed

namespace Hierarchy

/-- Over objects with numbers for the coordinates of their boxes, the tree cuts every list of more
than two objects that it comes to where the surfaces of the two parts, weighted with their numbers,
add up to the least: it sorts the list along the first axis with such a cut, objects of the same
middle in the order they had, and takes the last such cut there. -/
theorem built_cutsBest (boxOf : β → Box Float) {objects : List β} (hne : objects ≠ [])
    (hnumeric : ∀ o ∈ objects, (boxOf o).IsNumeric) :
    ∃ h, ofAreaDensity? boxOf objects = some (h.map Boxed.object) ∧
      Boxed.CutsBest (boxed boxOf objects) h := by
  have hitems : boxed boxOf objects ≠ [] := mt List.map_eq_nil_iff.mp hne
  exact ⟨Boxed.hierarchy (boxed boxOf objects) hitems, dif_neg hitems,
    Boxed.cutsBest_hierarchy _ (Boxed.allNumeric_boxed hnumeric) hitems⟩

/-- Three cubes in a row, at the same distances. -/
def evenRow : List (Box Float) :=
  [0, 10, 20].map fun x => ⟨⟨x, 0, 0⟩, ⟨x + 1, 1, 1⟩⟩

theorem sortAlong_evenRow (a : Axis) : Boxed.sortAlong a (boxed id evenRow) = boxed id evenRow := by
  apply List.mergeSort_of_pairwise
  cases a with
  | _ => decide +kernel

/-- Both cuts are equally good, and the later one is made. -/
theorem built_cutsBest_evenRow :
    ∃ l r, ofAreaDensity? id evenRow = some (.branch l r) ∧ l.toList.Perm (evenRow.take 2) ∧
      r.toList.Perm (evenRow.drop 2) := by
  have hnumeric : ∀ b ∈ evenRow, b.IsNumeric := by decide +kernel
  have hne : evenRow ≠ [] := List.cons_ne_nil _ _
  obtain ⟨h, hbuilt, hcuts⟩ := built_cutsBest id hne hnumeric
  generalize hxs : boxed id evenRow = xs at hcuts
  cases hcuts with
  | few _ hshort =>
      subst hxs
      exact absurd hshort (by decide)
  | @cut _ l r a s order _ horder hs hs' hbest hl hr _ _ =>
      subst hxs
      obtain rfl : order = fun _ => boxed id evenRow :=
        funext fun b => (horder b).eq_sortAlong.trans (sortAlong_evenRow b)
      have hscores : Boxed.ScoresNumeric (fun _ => boxed id evenRow) 3 := by
        intro _ t ht ht'
        have hnumber : ∀ t ∈ [1, 2], (Boxed.cutScore (boxed id evenRow) t ==
            Boxed.cutScore (boxed id evenRow) t) = true := by
          decide +kernel
        exact hnumber t (by simp; omega)
      have hlast : Boxed.cutScore (boxed id evenRow) 2 ≤ Boxed.cutScore (boxed id evenRow) s →
          2 ≤ s :=
        (hbest hscores).last 2 (by decide) (by decide)
      have hs'' : s < 3 := hs'
      obtain rfl : s = 2 := by
        interval_cases s
        · exact absurd (hlast (by decide +kernel)) (by decide)
        · rfl
      refine ⟨l.map Boxed.object, r.map Boxed.object, hbuilt, ?_, ?_⟩
      · rw [toList_map]
        exact hl.map Boxed.object
      · rw [toList_map]
        exact hr.map Boxed.object

end Hierarchy

end SolidSurface
