import SolidSurface.Hierarchy.Median

/-! # Splits by area density

A list is cut in two where the surface of each part, weighted with the number of its objects, adds
up to the least. Among equal cuts along one axis the last is taken, and among the axes the first.
-/

namespace SolidSurface

variable {α β : Type} [Scalar α]

namespace Boxed

/-- The boxes around the growing beginnings of a list. -/
@[specialize] def runningUnions (acc : Box α) : List (Box α) → List (Box α)
  | [] => []
  | b :: bs => acc.union b :: runningUnions (acc.union b) bs

/-- Weighted surface of the two parts of a list of `n` boxes, for every cut from after the first box
to before the last. -/
@[specialize] def cutScores (n : Nat) (boxes : List (Box α)) : List (Nat × α) :=
  let before := runningUnions .empty boxes
  let after := (runningUnions .empty boxes.reverse).reverse
  (before.zip after.tail).zipIdx.map fun ((b, a), i) =>
    (i + 1, b.surfaceArea * Scalar.ofNat (i + 1) + a.surfaceArea * Scalar.ofNat (n - (i + 1)))

/-- A cut so far, with its score. -/
structure Cut (α : Type) where
  score : Extended α
  index : Nat

@[inline] def Cut.offer (best : Cut α) : Nat × α → Cut α
  | (i, score) => if (Extended.val score).le best.score then ⟨.val score, i⟩ else best

@[specialize] def bestCut (xs : List (Boxed α β)) : Cut α :=
  (cutScores xs.length (xs.map Boxed.box)).foldl Cut.offer ⟨.infinity, 1⟩

/-- An order of `n` objects along some axis, and a cut of it. -/
structure AxisCut (α : Type) (n : Nat) where
  order : List (Fin n)
  cut : Cut α

@[specialize] def cutAlong (xs : Array (Boxed α β)) (a : Axis) : AxisCut α xs.size :=
  let order := orderAlong a xs
  ⟨order, bestCut (objectsAt xs order)⟩

@[inline] def AxisCut.offer {n : Nat} (best other : AxisCut α n) : AxisCut α n :=
  if other.cut.score.lt best.cut.score then other else best

/-- The best cut along any axis. -/
@[specialize] def leastAxisCut (xs : Array (Boxed α β)) : AxisCut α xs.size :=
  ((cutAlong xs .x).offer (cutAlong xs .y)).offer (cutAlong xs .z)

/-! ## A cut leaves something on both sides -/

theorem length_runningUnions (acc : Box α) (bs : List (Box α)) :
    (runningUnions acc bs).length = bs.length := by
  induction bs generalizing acc with
  | nil => rfl
  | cons b bs ih => simp [runningUnions, ih]

theorem index_of_mem_cutScores {n i : Nat} {score : α} {boxes : List (Box α)}
    (h : (i, score) ∈ cutScores n boxes) : 0 < i ∧ i < boxes.length := by
  simp only [cutScores, List.mem_map, Prod.mk.injEq] at h
  obtain ⟨⟨⟨b, a⟩, j⟩, hj, rfl, -⟩ := h
  have := List.mem_zipIdx hj
  simp [length_runningUnions] at this
  omega

theorem index_foldl_offer {n : Nat} (scores : List (Nat × α)) (best : Cut α)
    (hbest : 0 < best.index ∧ best.index < n)
    (h : ∀ c ∈ scores, 0 < c.1 ∧ c.1 < n) :
    0 < (scores.foldl Cut.offer best).index ∧ (scores.foldl Cut.offer best).index < n := by
  induction scores generalizing best with
  | nil => exact hbest
  | cons c cs ih =>
    refine ih _ ?_ fun d hd => h d (List.mem_cons_of_mem _ hd)
    simp only [Cut.offer]
    split
    · exact h c List.mem_cons_self
    · exact hbest

theorem index_bestCut {xs : List (Boxed α β)} (h : 2 ≤ xs.length) :
    0 < (bestCut xs).index ∧ (bestCut xs).index < xs.length := by
  refine index_foldl_offer _ _ ⟨Nat.one_pos, h⟩ fun c hc => ?_
  obtain ⟨i, score⟩ := c
  simpa using index_of_mem_cutScores hc

theorem AxisCut.offer_eq {n : Nat} (best other : AxisCut α n) :
    best.offer other = best ∨ best.offer other = other := by
  simp only [AxisCut.offer]
  split
  · exact .inr rfl
  · exact .inl rfl

theorem leastAxisCut_eq_cutAlong (xs : Array (Boxed α β)) :
    ∃ a, leastAxisCut xs = cutAlong xs a := by
  rcases ((cutAlong xs .x).offer (cutAlong xs .y)).offer_eq (cutAlong xs .z) with h | h
  · rcases (cutAlong xs .x).offer_eq (cutAlong xs .y) with h' | h'
    · exact ⟨.x, h.trans h'⟩
    · exact ⟨.y, h.trans h'⟩
  · exact ⟨.z, h⟩

/-- The two parts of a list that its best cut leaves. -/
@[specialize] def bestParts (xs : List (Boxed α β)) : List (Boxed α β) × List (Boxed α β) :=
  let items := xs.toArray
  let best := leastAxisCut items
  (permute items best.order).splitAt best.cut.index

theorem bestParts_eq {xs : List (Boxed α β)} {a : Axis}
    (h : leastAxisCut xs.toArray = cutAlong xs.toArray a) :
    bestParts xs = (sortAlong a xs).splitAt (bestCut (sortAlong a xs)).index := by
  simp only [bestParts, h, cutAlong, permute_orderAlong, objectsAt_orderAlong]

theorem exists_bestParts_eq (xs : List (Boxed α β)) :
    ∃ a, bestParts xs = (sortAlong a xs).splitAt (bestCut (sortAlong a xs)).index :=
  have ⟨a, h⟩ := leastAxisCut_eq_cutAlong xs.toArray
  ⟨a, bestParts_eq h⟩

theorem length_bestParts {xs : List (Boxed α β)} (h : 2 ≤ xs.length) :
    0 < (bestParts xs).1.length ∧ 0 < (bestParts xs).2.length ∧
      (bestParts xs).1.length + (bestParts xs).2.length = xs.length := by
  obtain ⟨a, ha⟩ := exists_bestParts_eq xs
  have hindex := index_bestCut (show 2 ≤ (sortAlong a xs).length by rwa [length_sortAlong])
  rw [length_sortAlong] at hindex
  rw [ha, List.splitAt_eq, List.length_take, List.length_drop, length_sortAlong]
  omega

/-- The tree that cuts a list by area density down to two objects. -/
@[specialize] def hierarchy (xs : List (Boxed α β)) (hne : xs ≠ []) : Hierarchy (Boxed α β) :=
  if h : xs.length ≤ 2 then .ofOrdered xs hne
  else
    let parts := bestParts xs
    have hparts := length_bestParts (Nat.le_of_not_le h)
    .branch
      (hierarchy parts.1 (List.ne_nil_of_length_pos hparts.1))
      (hierarchy parts.2 (List.ne_nil_of_length_pos hparts.2.1))
termination_by xs.length
decreasing_by
  all_goals omega

end Boxed

/-- The tree of least area density over a list of objects. -/
@[specialize] def Hierarchy.ofAreaDensity? (box : β → Box α) (xs : List β) : Option (Hierarchy β) :=
  let items := boxed box xs
  if h : items = [] then none else some ((Boxed.hierarchy items h).map Boxed.object)

end SolidSurface
