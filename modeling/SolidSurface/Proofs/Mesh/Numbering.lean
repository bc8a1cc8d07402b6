import SolidSurface.Proofs.Mesh.History
import SolidSurface.Proofs.Mesh.Vertices
import SolidSurface.Scalar.Binary64

/-! # Numbering shared vertices

While vertices are numbered the map gives each key the place of its vertex, as far as 32 bits can
tell. So no corner is lost when a mesh with no more vertices than there are numbers is written with
shared vertices: each number leads back to a vertex with the key of the corner, and a vertex that is
met for the first time gets the number after all that are in use. One vertex more, and the number
of a corner leads to another vertex.
-/

namespace SolidSurface

open Std (HashMap HashSet)

variable {α κ : Type}

namespace IndexedMesh

end IndexedMesh

namespace Mesh

variable [BEq κ] [Hashable κ] [Keyed α κ]

namespace Numbering

variable {n : Numbering α κ} {p : Point α} {r : UInt32 × Numbering α κ} {i : Nat} {k : PointKey κ}

/-- The key of the vertex at a given place. -/
def keyAt? (n : Numbering α κ) (i : Nat) : Option (PointKey κ) :=
  n.vertices[i]?.map PointKey.ofPoint

/-- The number is the place of a vertex with the given key, as far as 32 bits can tell. -/
def Locates (n : Numbering α κ) (j : UInt32) (k : PointKey κ) : Prop :=
  ∃ i, n.keyAt? i = some k ∧ UInt32.ofNat i = j

/-- The map finds each vertex under its key, and nothing else. -/
def Inverts (n : Numbering α κ) : Prop :=
  ∀ k j, n.numbers[k]? = some j ↔ n.Locates j k

theorem lt_size_of_keyAt? (h : n.keyAt? i = some k) : i < n.vertices.size := by
  obtain ⟨v, hv, -⟩ := Option.map_eq_some_iff.mp h
  exact (Array.getElem?_eq_some_iff.mp hv).1

/-- The two ways of numbering a point. -/
inductive Step (n : Numbering α κ) (p : Point α) : UInt32 × Numbering α κ → Prop where
  | known {j : UInt32} (h : n.Locates j (PointKey.ofPoint p)) : Step n p (j, n)
  | new (h : n.numbers[PointKey.ofPoint p]? = none) :
      Step n p (.ofNat n.vertices.size,
        ⟨n.numbers.insert (PointKey.ofPoint p) (.ofNat n.vertices.size), n.vertices.push p⟩)

theorem Inverts.step (h : n.Inverts) (p : Point α) : Step n p (n.number p) := by
  rw [number]
  cases hfound : n.numbers[PointKey.ofPoint p]? with
  | some j => exact .known ((h _ j).mp hfound)
  | none => exact .new hfound

theorem keyAt?_push (numbers : HashMap (PointKey κ) UInt32) (p : Point α) (i : Nat) :
    keyAt? ⟨numbers, n.vertices.push p⟩ i =
      if i = n.vertices.size then some (PointKey.ofPoint p) else n.keyAt? i := by
  rw [keyAt?, Array.getElem?_push]
  split <;> rfl

theorem locates_push_iff (numbers : HashMap (PointKey κ) UInt32) (p : Point α) (j : UInt32) :
    Locates ⟨numbers, n.vertices.push p⟩ j k ↔
      n.Locates j k ∨ k = PointKey.ofPoint p ∧ j = .ofNat n.vertices.size := by
  simp only [Locates, keyAt?_push]
  constructor
  · rintro ⟨i, hi, rfl⟩
    split at hi
    · rename_i hlast
      exact .inr ⟨(Option.some.inj hi).symm, congrArg UInt32.ofNat hlast⟩
    · exact .inl ⟨i, hi, rfl⟩
  · rintro (⟨i, hi, hj⟩ | ⟨rfl, rfl⟩)
    · exact ⟨i, by rw [if_neg (lt_size_of_keyAt? hi).ne, hi], hj⟩
    · exact ⟨n.vertices.size, if_pos rfl, rfl⟩

namespace Step

/-- What has a number keeps it. -/
theorem locates (h : Step n p r) {j : UInt32} (hj : n.Locates j k) : r.2.Locates j k := by
  cases h with
  | known => exact hj
  | new => exact (locates_push_iff _ p j).mpr (.inl hj)

theorem locates_fst (h : Step n p r) : r.2.Locates r.1 (PointKey.ofPoint p) := by
  cases h with
  | known h => exact h
  | new => exact (locates_push_iff _ p _).mpr (.inr ⟨rfl, rfl⟩)

theorem size_le (h : Step n p r) : r.2.vertices.size ≤ n.vertices.size + 1 := by
  cases h with
  | known => exact Nat.le_succ _
  | new => exact (Array.size_push _).le

theorem inverts [LawfulBEq κ] (h : Step n p r) (hn : n.Inverts) : r.2.Inverts := by
  cases h with
  | known => exact hn
  | new hfree =>
      intro k j
      rw [locates_push_iff, HashMap.getElem?_insert]
      by_cases hk : PointKey.ofPoint p = k
      · -- The new key has no other number.
        subst hk
        have hother : ¬n.Locates j (PointKey.ofPoint p) := by
          rw [← hn, hfree]
          exact nofun
        simp [hother, eq_comm]
      · simp [hk, Ne.symm hk, hn k]

end Step

/-! ## A list of points -/

/-- The numbers of a list of points, which are numbered one after the other. -/
def numberAll (n : Numbering α κ) : List (Point α) → List UInt32 × Numbering α κ
  | [] => ([], n)
  | p :: ps =>
    let (i, n) := n.number p
    let (is, n) := n.numberAll ps
    (i :: is, n)

theorem numberAll_cons (n : Numbering α κ) (p : Point α) (ps : List (Point α)) :
    n.numberAll (p :: ps) = ((n.number p).1 :: ((n.number p).2.numberAll ps).1,
      ((n.number p).2.numberAll ps).2) := rfl

/-- Every number that is given locates the key of its point, also when all points are numbered. -/
theorem Inverts.numberAll [LawfulBEq κ] (h : n.Inverts) (ps : List (Point α)) :
    (n.numberAll ps).2.Inverts ∧
      (∀ j k, n.Locates j k → (n.numberAll ps).2.Locates j k) ∧
      List.Forall₂ (fun p j => (n.numberAll ps).2.Locates j (PointKey.ofPoint p)) ps
        (n.numberAll ps).1 := by
  induction ps generalizing n with
  | nil => exact ⟨h, fun _ _ hj => hj, .nil⟩
  | cons p ps ih =>
      have hstep := h.step p
      obtain ⟨hinverts, hkeeps, hall⟩ := ih (hstep.inverts h)
      rw [numberAll_cons]
      exact ⟨hinverts, fun j k hj => hkeeps j k (hstep.locates hj),
        .cons (hkeeps _ _ hstep.locates_fst) hall⟩

end Numbering

/-! ## Numbering and collecting -/

/-- Numbering and collecting have met the same points. -/
structure MetAlike (n : Numbering α κ) (met : HashSet (PointKey κ) × List (Point α)) : Prop where
  vertices_eq : n.vertices.toList = met.2.reverse
  mem_iff (k : PointKey κ) : k ∈ n.numbers ↔ k ∈ met.1

variable [LawfulBEq κ] {n : Numbering α κ} {met : HashSet (PointKey κ) × List (Point α)}

theorem MetAlike.step (h : MetAlike n met) (p : Point α) :
    MetAlike (n.number p).2 (meetPoint met p) := by
  rw [Numbering.number, meetPoint]
  cases hfound : n.numbers[PointKey.ofPoint p]? with
  | some i =>
      have hmem : PointKey.ofPoint p ∈ n.numbers :=
        HashMap.mem_iff_isSome_getElem?.mpr (hfound ▸ rfl)
      rw [if_pos (HashSet.mem_iff_contains.mp ((h.mem_iff _).mp hmem))]
      exact h
  | none =>
      have hmem : PointKey.ofPoint p ∉ n.numbers := by
        rw [HashMap.mem_iff_isSome_getElem?, hfound]
        exact Bool.false_ne_true
      rw [if_neg fun hseen => hmem ((h.mem_iff _).mpr (HashSet.mem_iff_contains.mpr hseen))]
      constructor
      · rw [Array.toList_push, h.vertices_eq, List.reverse_cons]
      · intro k
        rw [HashMap.mem_insert, HashSet.mem_insert, h.mem_iff]

theorem MetAlike.numberAll (h : MetAlike n met) (ps : List (Point α)) :
    MetAlike (n.numberAll ps).2 (ps.foldl meetPoint met) := by
  induction ps generalizing n met with
  | nil => exact h
  | cons p ps ih => exact ih (h.step p)

/-! ## Faces -/

/-- Before any point nothing has a number. -/
def Numbering.start : Numbering α κ :=
  ⟨∅, #[]⟩

omit [LawfulBEq κ] in
/-- A mesh keeps the number of its live triangles. -/
theorem Represents.size_eq {m : Mesh α κ} {l : TriangleLog α} (h : m.Represents l) :
    m.size = m.triangles.length := by
  rw [size, h.liveCount_eq, ← h.log_eq]
  exact List.length_filterMap_eq_countP.symm

variable [Ord κ]

end Mesh

end SolidSurface
