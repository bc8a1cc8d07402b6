import Mathlib.Data.List.Nodup
import SolidSurface.Mesh.Topology
import SolidSurface.Proofs.Mesh.Winding

/-! # Segments and the sides on them

A segment forgets the direction of a side. Where a mesh is closed and coherently wound half of the
sides on a segment run one way and half the other, so the mesh is manifold when no directed side is
met twice.
-/

namespace SolidSurface

open Std (HashMap)

variable {α κ : Type}

instance [BEq κ] [LawfulBEq κ] : LawfulBEq (Segment κ) where
  rfl {s} := by
    change (s.low == s.low && s.high == s.high) = true
    simp
  eq_of_beq {s t} h := by
    change (s.low == t.low && s.high == t.high) = true at h
    cases s
    cases t
    simpa using h

variable [Ord κ]

/-! ## The order of keys -/

namespace PointKey

theorem compare_eq_then (k l : PointKey κ) :
    compare k l = (compare k.x l.x).then ((compare k.y l.y).then (compare k.z l.z)) := rfl

section Trans

variable [Std.TransOrd κ]

instance : Std.TransOrd (PointKey κ) :=
  inferInstanceAs (Std.TransCmp (compareLex (compareOn PointKey.x)
    (compareLex (compareOn PointKey.y) (compareOn PointKey.z))))

theorem le_trans (j k l : PointKey κ) (hjk : j.le k = true) (hkl : k.le l = true) :
    j.le l = true :=
  Std.TransOrd.isLE_trans hjk hkl

end Trans

variable [Std.OrientedOrd κ] [Std.LawfulEqOrd κ]

instance : Std.OrientedOrd (PointKey κ) where
  eq_swap {k l} := by
    rw [compare_eq_then, compare_eq_then, Ordering.swap_then, Ordering.swap_then,
      ← Std.OrientedOrd.eq_swap, ← Std.OrientedOrd.eq_swap, ← Std.OrientedOrd.eq_swap]

instance : Std.LawfulEqOrd (PointKey κ) where
  compare_self {k} := by
    rw [compare_eq_then, Std.ReflOrd.compare_self, Std.ReflOrd.compare_self,
      Std.ReflOrd.compare_self]
    rfl
  eq_of_compare {k l} h := by
    rw [compare_eq_then, Ordering.then_eq_eq, Ordering.then_eq_eq] at h
    obtain ⟨hx, hy, hz⟩ := h
    calc
      k = ⟨k.x, k.y, k.z⟩ := rfl
      _ = ⟨l.x, l.y, l.z⟩ := by
        rw [Std.LawfulEqOrd.eq_of_compare hx, Std.LawfulEqOrd.eq_of_compare hy,
          Std.LawfulEqOrd.eq_of_compare hz]

omit [Std.LawfulEqOrd κ] in
theorem le_total (k l : PointKey κ) : (k.le l || l.le k) = true := by
  have hswap : compare l k = (compare k l).swap := Std.OrientedOrd.eq_swap
  rw [le, le, hswap]
  cases compare k l <;> rfl

omit [Std.OrientedOrd κ] in
theorem compare_eq_lt {k l : PointKey κ} (hle : k.le l = true) (hne : k ≠ l) :
    compare k l = .lt := by
  cases h : compare k l with
  | lt => rfl
  | eq => exact absurd (Std.LawfulEqOrd.eq_of_compare h) hne
  | gt =>
      rw [le, h] at hle
      cases hle

end PointKey

namespace Segment

/-- The segment between two keys. -/
def ofKeys (k l : PointKey κ) : Segment κ :=
  if k.le l then ⟨k, l⟩ else ⟨l, k⟩

theorem ofKeys_eq_or (k l : PointKey κ) : ofKeys k l = ⟨k, l⟩ ∨ ofKeys k l = ⟨l, k⟩ := by
  rw [ofKeys]
  split
  · exact .inl rfl
  · exact .inr rfl

variable [Std.OrientedOrd κ] [Std.LawfulEqOrd κ]

theorem ofKeys_comm (k l : PointKey κ) : ofKeys k l = ofKeys l k := by
  have hswap : compare l k = (compare k l).swap := Std.OrientedOrd.eq_swap
  by_cases heq : compare k l = .eq
  · rw [Std.LawfulEqOrd.eq_of_compare heq]
  · have hle : l.le k = !k.le l := by
      rw [PointKey.le, PointKey.le, hswap]
      revert heq
      cases compare k l <;> decide
    rw [ofKeys, ofKeys, hle]
    cases k.le l <;> rfl

theorem ofKeys_eq_ofKeys_iff {k l k' l' : PointKey κ} :
    ofKeys k l = ofKeys k' l' ↔ (k = k' ∧ l = l') ∨ (k = l' ∧ l = k') := by
  constructor
  · intro h
    rcases ofKeys_eq_or k l with h₁ | h₁ <;> rcases ofKeys_eq_or k' l' with h₂ | h₂ <;>
      rw [h₁, h₂, Segment.mk.injEq] at h
    · exact .inl h
    · exact .inr h
    · exact .inr h.symm
    · exact .inl h.symm
  · rintro (⟨rfl, rfl⟩ | ⟨rfl, rfl⟩)
    · rfl
    · exact ofKeys_comm _ _

end Segment

/-! ## Counting -/

section Tally

variable {σ : Type} [BEq σ] [Hashable σ] [LawfulBEq σ]

/-- Adds one to the count of a key. -/
def tally (counts : HashMap σ Nat) (s : σ) : HashMap σ Nat :=
  counts.alter s fun count? => some (count?.getD 0 + 1)

theorem getD_foldl_tally (l : List σ) (counts : HashMap σ Nat) (s : σ) :
    (l.foldl tally counts).getD s 0 = counts.getD s 0 + l.count s := by
  induction l generalizing counts with
  | nil => rfl
  | cons t l ih =>
      rw [List.foldl_cons, ih, List.count_cons, tally, HashMap.getD_alter]
      split
      · rename_i h
        rw [eq_of_beq h, HashMap.getD_eq_getD_getElem?, Option.getD_some]
        omega
      · rfl

theorem mem_foldl_tally (l : List σ) (counts : HashMap σ Nat) (s : σ) :
    s ∈ l.foldl tally counts ↔ s ∈ counts ∨ s ∈ l := by
  induction l generalizing counts with
  | nil => simp
  | cons t l ih =>
      rw [List.foldl_cons, ih, tally, HashMap.mem_alter, List.mem_cons]
      by_cases h : t = s
      · simp [h]
      · simp [h, Ne.symm h]

end Tally

namespace Mesh

variable [BEq κ] [Hashable κ] [Keyed α κ]

/-- The segments under the sides of a mesh, one for each side. -/
def sideSegments (m : Mesh α κ) : List (Segment κ) :=
  m.directedSides.map fun s => Segment.ofKeys s.1 s.2

theorem sideCounts_eq_foldl_tally (m : Mesh α κ) :
    m.sideCounts = m.sideSegments.foldl tally ∅ := by
  rw [sideSegments, directedSides, Triangle.allSides, List.map_map, List.foldl_map,
    List.foldl_flatMap]
  rfl

variable [LawfulBEq κ]

theorem getD_sideCounts (m : Mesh α κ) (s : Segment κ) :
    m.sideCounts.getD s 0 = m.sideSegments.count s := by
  rw [sideCounts_eq_foldl_tally, getD_foldl_tally, HashMap.getD_empty, Nat.zero_add]

theorem mem_sideCounts (m : Mesh α κ) (s : Segment κ) :
    s ∈ m.sideCounts ↔ s ∈ m.sideSegments := by
  rw [sideCounts_eq_foldl_tally, mem_foldl_tally]
  simp

theorem isManifold_iff_count_eq_two (m : Mesh α κ) :
    m.isManifold = true ↔ ∀ s ∈ m.sideSegments, m.sideSegments.count s = 2 := by
  rw [isManifold, HashMap.all_eq_true_iff_forall_mem_getElem]
  constructor
  · intro h s hs
    have hmem := (m.mem_sideCounts s).mpr hs
    rw [← getD_sideCounts, HashMap.getD_eq_getD_getElem?, HashMap.getElem?_eq_some_getElem hmem,
      Option.getD_some]
    exact eq_of_beq (h s hmem)
  · intro h s hs
    rw [beq_iff_eq, ← h s ((m.mem_sideCounts s).mp hs), ← getD_sideCounts,
      HashMap.getD_eq_getD_getElem?, HashMap.getElem?_eq_some_getElem hs, Option.getD_some]

variable [Std.OrientedOrd κ] [Std.LawfulEqOrd κ]

/-- On a segment lie the sides between its ends, in either direction. -/
theorem count_sideSegments (m : Mesh α κ) {k l : PointKey κ} (hne : k ≠ l) :
    m.sideSegments.count (Segment.ofKeys k l) = m.sideCount k l + m.sideCount l k := by
  have hside : ∀ s : PointKey κ × PointKey κ,
      (Segment.ofKeys s.1 s.2 == Segment.ofKeys k l) = (s == (k, l) || s == (l, k)) := by
    intro s
    rw [Bool.eq_iff_iff, Bool.or_eq_true, beq_iff_eq, beq_iff_eq, beq_iff_eq,
      Segment.ofKeys_eq_ofKeys_iff, Prod.ext_iff, Prod.ext_iff]
  have hone : ∀ s : PointKey κ × PointKey κ, s == (k, l) → (s == (l, k)) = false := by
    intro s hs
    rw [eq_of_beq hs, beq_eq_false_iff_ne]
    exact fun h => hne (congrArg Prod.fst h)
  rw [sideSegments, sideCount, sideCount]
  induction m.directedSides with
  | nil => rfl
  | cons s ss ih =>
      rw [List.map_cons, List.count_cons, List.count_cons, List.count_cons, ih, hside]
      cases hkl : s == (k, l) with
      | true => simp only [hone s hkl, Bool.true_or, ↓reduceIte, Bool.false_eq_true]; omega
      | false => simp only [Bool.false_or, ↓reduceIte, Bool.false_eq_true]; omega

/-- A closed and coherently wound mesh is manifold when its directed sides are all different. -/
theorem isManifold_iff_nodup_of_balanced {m : Mesh α κ} (hbalanced : Balanced m.directedSides)
    (hends : ∀ s ∈ m.directedSides, s.1 ≠ s.2) :
    m.isManifold = true ↔ m.directedSides.Nodup := by
  have hcount : ∀ s ∈ m.directedSides,
      m.sideSegments.count (Segment.ofKeys s.1 s.2) = 2 * m.directedSides.count s := by
    intro s hs
    have hback := sideCount_eq_of_balanced hbalanced s.1 s.2
    rw [count_sideSegments m (hends s hs), ← hback, ← Nat.two_mul]
    rfl
  rw [isManifold_iff_count_eq_two, List.nodup_iff_count_eq_one]
  constructor
  · intro h s hs
    have htwo := h _ (List.mem_map_of_mem hs)
    rw [hcount s hs] at htwo
    omega
  · intro h t ht
    obtain ⟨s, hs, rfl⟩ := List.mem_map.mp ht
    rw [hcount s hs, h s hs]

end Mesh

end SolidSurface
