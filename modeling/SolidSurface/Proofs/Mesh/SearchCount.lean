import Mathlib.Combinatorics.SimpleGraph.Connectivity.Connected
import Mathlib.Data.Set.Card
import SolidSurface.Mesh.Topology

/-! # Searches and connected components

A depth-first search takes away everything that can be reached from where it starts and leaves
everything else. So each search takes away one connected component, and the number of searches that
are started is the number of components.
-/

namespace SolidSurface.Mesh

variable {ρ σ : Type}

/-! ## One search -/

section Search

variable (joined : ρ → ρ → Bool)

@[simp] theorem unreached_nil (apart : List ρ) : unreached joined [] apart = apart := by
  rw [unreached]

theorem unreached_cons (r : ρ) (stack apart : List ρ) : unreached joined (r :: stack) apart =
    unreached joined ((apart.filter (joined r)).reverse ++ stack) (apart.filter (!joined r ·)) := by
  rw [unreached, List.partition_eq_filter_filter]
  rfl

/-- Induction along a search, by what is popped. -/
theorem search_induction {motive : List ρ → List ρ → Prop} (nil : ∀ apart, motive [] apart)
    (cons : ∀ r stack apart,
      motive ((apart.filter (joined r)).reverse ++ stack) (apart.filter (!joined r ·)) →
      motive (r :: stack) apart) (stack apart : List ρ) : motive stack apart := by
  fun_induction unreached joined stack apart with
  | case1 apart => exact nil apart
  | case2 r stack apart parts ih =>
      refine cons r stack apart ?_
      rwa [show parts = _ from List.partition_eq_filter_filter] at ih

theorem unreached_sublist (stack apart : List ρ) :
    (unreached joined stack apart).Sublist apart := by
  induction stack, apart using search_induction joined with
  | nil apart => rw [unreached_nil]
  | cons r stack apart ih =>
      rw [unreached_cons]
      exact ih.trans List.filter_sublist

/-- A search sees its elements through `joined` alone. -/
theorem unreached_map (f : σ → ρ) (stack apart : List σ) :
    unreached joined (stack.map f) (apart.map f) =
      (unreached (fun x y => joined (f x) (f y)) stack apart).map f := by
  induction stack, apart using search_induction fun x y => joined (f x) (f y) with
  | nil apart => rw [List.map_nil, unreached_nil, unreached_nil]
  | cons x stack apart ih =>
      rw [List.map_cons, unreached_cons, unreached_cons, ← ih, List.map_append, List.map_reverse,
        List.filter_map, List.filter_map]
      rfl

theorem searchCount_map (f : σ → ρ) (xs : List σ) :
    searchCount joined (xs.map f) = searchCount (fun x y => joined (f x) (f y)) xs := by
  fun_induction searchCount (fun x y => joined (f x) (f y)) xs with
  | case1 => rw [List.map_nil, searchCount]
  | case2 x rest ih =>
      rw [List.map_cons, searchCount, ← ih]
      exact congrArg (searchCount joined · + 1) (unreached_map joined f [x] rest)

variable {joined} {stack apart : List ρ} {x y : ρ}

/-- What is left is joined to nothing that has been on the stack. -/
theorem joined_eq_false_of_mem_unreached (hx : x ∈ unreached joined stack apart)
    (hy : y ∈ stack ∨ y ∈ apart ∧ y ∉ unreached joined stack apart) : joined y x = false := by
  induction stack, apart using search_induction joined with
  | nil apart =>
      rw [unreached_nil] at hx hy
      simp at hy
  | cons r stack apart ih =>
      rw [unreached_cons] at hx hy
      have hrest := (unreached_sublist joined _ _).mem hx
      rw [List.mem_filter, Bool.not_eq_true'] at hrest
      rcases hy with hy | ⟨hy, hgone⟩
      · cases hy with
        | head => exact hrest.2
        | tail _ hy => exact ih hx (.inl (List.mem_append_right _ hy))
      · cases hjoin : joined r y with
        | true =>
            have hfound : y ∈ (apart.filter (joined r)).reverse := by simp [hy, hjoin]
            exact ih hx (.inl (List.mem_append_left _ hfound))
        | false => exact ih hx (.inr ⟨by simp [hy, hjoin], hgone⟩)

/-- What is not left was reached from something on the stack. -/
theorem exists_reachable_of_not_mem_unreached {G : SimpleGraph ρ}
    (hjoin : ∀ x y, joined x y = true → G.Reachable x y) (hy : y ∈ apart)
    (hgone : y ∉ unreached joined stack apart) : ∃ s ∈ stack, G.Reachable s y := by
  induction stack, apart using search_induction joined with
  | nil apart =>
      rw [unreached_nil] at hgone
      exact absurd hy hgone
  | cons r stack apart ih =>
      rw [unreached_cons] at hgone
      cases hry : joined r y with
      | true => exact ⟨r, List.mem_cons_self, hjoin r y hry⟩
      | false =>
          obtain ⟨s, hs, hreach⟩ := ih (by simp [hy, hry]) hgone
          rw [List.mem_append, List.mem_reverse, List.mem_filter] at hs
          rcases hs with ⟨-, hrs⟩ | hs
          · exact ⟨r, List.mem_cons_self, (hjoin r s hrs).trans hreach⟩
          · exact ⟨s, List.mem_cons_of_mem r hs, hreach⟩

end Search

/-! ## All searches -/

section Components

variable {G : SimpleGraph ρ}

/-- The components that a list has elements of. -/
def componentsOf (G : SimpleGraph ρ) (xs : List ρ) : Set G.ConnectedComponent :=
  {c | ∃ x ∈ xs, G.connectedComponentMk x = c}

theorem finite_componentsOf (xs : List ρ) : (componentsOf G xs).Finite :=
  xs.finite_toSet.image G.connectedComponentMk

/-- No edge leads out of the list. -/
def Isolated (G : SimpleGraph ρ) (xs : List ρ) : Prop :=
  ∀ x ∈ xs, ∀ y, G.Adj x y → y ∈ xs

theorem Isolated.mem_of_reachable {xs : List ρ} (h : Isolated G xs) {x y : ρ} (hx : x ∈ xs)
    (hreach : G.Reachable x y) : y ∈ xs := by
  obtain ⟨walk⟩ := hreach
  induction walk with
  | nil => exact hx
  | cons hadj _ ih => exact ih (h _ hx _ hadj)

variable {joined : ρ → ρ → Bool} (hadj : ∀ x y, G.Adj x y ↔ x ≠ y ∧ joined x y = true)

include hadj

theorem Isolated.unreached {r : ρ} {rest : List ρ} (h : Isolated G (r :: rest)) :
    Isolated G (unreached joined [r] rest) := by
  intro x hx y hxy
  by_contra hgone
  -- Something gone would be joined to `x`, which is left.
  have hy : y ∈ [r] ∨ y ∈ rest ∧ y ∉ Mesh.unreached joined [r] rest := by
    have hmem := h x (List.mem_cons_of_mem r ((unreached_sublist joined _ _).mem hx)) y hxy
    cases List.mem_cons.mp hmem with
    | inl heq => exact .inl (List.mem_singleton.mpr heq)
    | inr hrest => exact .inr ⟨hrest, hgone⟩
  have hjoin := ((hadj y x).mp hxy.symm).2
  rw [joined_eq_false_of_mem_unreached hx hy] at hjoin
  cases hjoin

theorem componentsOf_cons (r : ρ) (rest : List ρ) : componentsOf G (r :: rest) =
    insert (G.connectedComponentMk r) (componentsOf G (Mesh.unreached joined [r] rest)) := by
  have hreach (x y : ρ) (hxy : joined x y = true) : G.Reachable x y := by
    by_cases heq : x = y
    · rw [heq]
    · exact ((hadj x y).mpr ⟨heq, hxy⟩).reachable
  ext c
  constructor
  · rintro ⟨x, hx, rfl⟩
    by_cases hleft : x ∈ Mesh.unreached joined [r] rest
    · exact .inr ⟨x, hleft, rfl⟩
    · refine .inl (SimpleGraph.ConnectedComponent.eq.mpr ?_)
      cases hx with
      | head => exact .refl r
      | tail _ hx =>
          obtain ⟨s, hs, hsx⟩ := exists_reachable_of_not_mem_unreached hreach hx hleft
          rw [List.mem_singleton.mp hs] at hsx
          exact hsx.symm
  · rintro (rfl | ⟨x, hx, rfl⟩)
    · exact ⟨r, List.mem_cons_self, rfl⟩
    · exact ⟨x, List.mem_cons_of_mem r ((unreached_sublist joined _ _).mem hx), rfl⟩

/-- Among elements that nothing else is joined to, each search accounts for one component. -/
theorem searchCount_eq_ncard {xs : List ρ} (hxs : xs.Nodup) (h : Isolated G xs) :
    searchCount joined xs = (componentsOf G xs).ncard := by
  fun_induction searchCount joined xs with
  | case1 => simp [componentsOf]
  | case2 r rest ih =>
      have hsub := unreached_sublist joined [r] rest
      have hleft := h.unreached hadj
      rw [List.nodup_cons] at hxs
      -- What is left is isolated again, so the component of `r` does not come back.
      have hnew : G.connectedComponentMk r ∉ componentsOf G (Mesh.unreached joined [r] rest) := by
        rintro ⟨x, hx, heq⟩
        have hr := hleft.mem_of_reachable hx (SimpleGraph.ConnectedComponent.eq.mp heq)
        exact hxs.1 (hsub.mem hr)
      rw [ih (hxs.2.sublist hsub) hleft, componentsOf_cons hadj,
        Set.ncard_insert_of_notMem hnew (finite_componentsOf _)]

/-- Over all elements, the number of searches is the number of connected components. -/
theorem searchCount_eq_card {xs : List ρ} (hxs : xs.Nodup) (hall : ∀ x, x ∈ xs) :
    searchCount joined xs = Nat.card G.ConnectedComponent := by
  have huniv : componentsOf G xs = Set.univ := by
    refine Set.eq_univ_of_forall fun c => ?_
    obtain ⟨x, rfl⟩ := c.exists_rep
    exact ⟨x, hall x, rfl⟩
  rw [searchCount_eq_ncard hadj hxs fun _ _ y _ => hall y, huniv, Set.ncard_univ]

end Components

end SolidSurface.Mesh
