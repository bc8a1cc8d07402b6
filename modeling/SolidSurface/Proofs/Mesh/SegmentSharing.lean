import Mathlib.Algebra.BigOperators.Group.List.Basic
import Mathlib.Data.Finset.Card
import SolidSurface.Proofs.Mesh.Log
import SolidSurface.Proofs.Mesh.SideCounts
import SolidSurface.Scalar.Binary64

/-! # Triangles that share a segment

The count of a segment adds up sides, so it is the number of triangles with that side as long as no
triangle has two sides there. Just those triangles do whose corners are not three different
vertices, and a single one of them can make a segment look shared by two.
-/

namespace SolidSurface

/-! ## Lists -/

theorem sum_eq_length_iff {l : List Nat} (h : ∀ n ∈ l, 1 ≤ n) :
    l.sum = l.length ↔ ∀ n ∈ l, n = 1 := by
  induction l with
  | nil => simp
  | cons n l ih =>
      rw [List.forall_mem_cons] at h
      have hle := List.length_le_sum_of_one_le l h.2
      rw [List.sum_cons, List.length_cons, List.forall_mem_cons, ← ih h.2]
      omega

theorem sum_eq_two_iff {l : List Nat} (h : ∀ n ∈ l, 1 ≤ n) :
    l.sum = 2 ↔ l = [1, 1] ∨ l = [2] := by
  constructor
  · intro hsum
    have hle := List.length_le_sum_of_one_le l h
    match l, h with
    | [], _ => cases hsum
    | [n], _ => exact .inr (congrArg (fun n => [n]) hsum)
    | [n, n'], h =>
        simp only [List.sum_cons, List.sum_nil, List.forall_mem_cons] at hsum h
        obtain rfl : n = 1 := by omega
        obtain rfl : n' = 1 := by omega
        exact .inl rfl
    | _ :: _ :: _ :: _, _ =>
        rw [hsum, List.length_cons, List.length_cons, List.length_cons] at hle
        omega
  · rintro (rfl | rfl) <;> rfl

theorem length_eq_two_iff_exists {β : Type} [DecidableEq β] {l : List β} (h : l.Nodup) :
    l.length = 2 ↔ ∃ a b, a ≠ b ∧ ∀ c, c ∈ l ↔ c = a ∨ c = b := by
  rw [← List.toFinset_card_of_nodup h, Finset.card_eq_two]
  simp only [Finset.ext_iff, List.mem_toFinset, Finset.mem_insert, Finset.mem_singleton]

variable {α κ : Type}

/-! ## The sides of a triangle -/

namespace Triangle

section Sides

variable [BEq κ] [Keyed α κ] {t : Triangle α} {k l : PointKey κ}

/-- Whether a side runs between two keys, one way or the other. -/
def runsBetween (k l : PointKey κ) (s : Point α × Point α) : Bool :=
  (PointKey.ofPoint s.1 == k && PointKey.ofPoint s.2 == l) ||
    (PointKey.ofPoint s.1 == l && PointKey.ofPoint s.2 == k)

/-- The number of sides between two keys. -/
def sidesBetween (t : Triangle α) (k l : PointKey κ) : Nat :=
  t.sides.countP (runsBetween k l)

def hasSide (t : Triangle α) (k l : PointKey κ) : Bool :=
  t.sides.any (runsBetween k l)

theorem hasSide_iff : t.hasSide k l = true ↔ 1 ≤ t.sidesBetween k l := by
  rw [hasSide, List.any_eq_true, sidesBetween, Nat.one_le_iff_ne_zero, ← Nat.pos_iff_ne_zero,
    List.countP_pos_iff]

theorem sidesBetween_eq (t : Triangle α) (k l : PointKey κ) : t.sidesBetween k l =
    (runsBetween k l (t.a, t.b)).toNat + (runsBetween k l (t.b, t.c)).toNat +
      (runsBetween k l (t.c, t.a)).toNat := by
  simp only [sidesBetween, sides, List.countP_cons, List.countP_nil, Nat.zero_add]
  cases runsBetween k l (t.a, t.b) <;> cases runsBetween k l (t.b, t.c) <;>
    cases runsBetween k l (t.c, t.a) <;> rfl

/-- The corners are three different vertices. -/
structure IsSpread (t : Triangle α) : Prop where
  ab : (PointKey.ofPoint t.a : PointKey κ) ≠ PointKey.ofPoint t.b
  bc : (PointKey.ofPoint t.b : PointKey κ) ≠ PointKey.ofPoint t.c
  ca : (PointKey.ofPoint t.c : PointKey κ) ≠ PointKey.ofPoint t.a

variable [LawfulBEq κ]

theorem runsBetween_iff {s : Point α × Point α} : runsBetween k l s = true ↔
    (PointKey.ofPoint s.1 = k ∧ PointKey.ofPoint s.2 = l) ∨
      (PointKey.ofPoint s.1 = l ∧ PointKey.ofPoint s.2 = k) := by
  rw [runsBetween, Bool.or_eq_true, Bool.and_eq_true, Bool.and_eq_true, beq_iff_eq, beq_iff_eq,
    beq_iff_eq, beq_iff_eq]

theorem IsSpread.sidesBetween_le_one (h : t.IsSpread (κ := κ)) (k l : PointKey κ) :
    t.sidesBetween k l ≤ 1 := by
  obtain ⟨hab, hbc, hca⟩ := h
  rw [sidesBetween_eq]
  cases hrab : runsBetween k l (t.a, t.b) <;> cases hrbc : runsBetween k l (t.b, t.c) <;>
    cases hrca : runsBetween k l (t.c, t.a) <;> try decide
  -- Two sides between the same keys would meet in two corners.
  all_goals grind [runsBetween_iff]

/-- From a doubled corner two sides run to the third one. -/
theorem exists_two_le_sidesBetween (h : ¬t.IsSpread (κ := κ)) :
    ∃ k l : PointKey κ, 2 ≤ t.sidesBetween k l := by
  have hforth : ∀ p q : Point α,
      runsBetween (PointKey.ofPoint p) (PointKey.ofPoint q : PointKey κ) (p, q) = true :=
    fun p q => runsBetween_iff.mpr (.inl ⟨rfl, rfl⟩)
  have hback : ∀ p q r : Point α, (PointKey.ofPoint p : PointKey κ) = PointKey.ofPoint q →
      runsBetween (PointKey.ofPoint q) (PointKey.ofPoint r : PointKey κ) (r, p) = true :=
    fun p q r h => runsBetween_iff.mpr (.inr ⟨rfl, h⟩)
  by_cases hab : (PointKey.ofPoint t.a : PointKey κ) = PointKey.ofPoint t.b
  · refine ⟨PointKey.ofPoint t.b, PointKey.ofPoint t.c, ?_⟩
    rw [sidesBetween_eq, hforth, hback _ _ _ hab, Bool.toNat_true]
    omega
  by_cases hbc : (PointKey.ofPoint t.b : PointKey κ) = PointKey.ofPoint t.c
  · refine ⟨PointKey.ofPoint t.c, PointKey.ofPoint t.a, ?_⟩
    rw [sidesBetween_eq, hforth, hback _ _ _ hbc, Bool.toNat_true]
    omega
  by_cases hca : (PointKey.ofPoint t.c : PointKey κ) = PointKey.ofPoint t.a
  · refine ⟨PointKey.ofPoint t.a, PointKey.ofPoint t.b, ?_⟩
    rw [sidesBetween_eq, hforth, hback _ _ _ hca, Bool.toNat_true]
    omega
  exact absurd ⟨hab, hbc, hca⟩ h

variable [Ord κ] [Std.OrientedOrd κ] [Std.LawfulEqOrd κ]

theorem ofKeys_beq_ofKeys (k l : PointKey κ) (s : Point α × Point α) :
    (Segment.ofKeys (PointKey.ofPoint s.1) (PointKey.ofPoint s.2) == Segment.ofKeys k l) =
      runsBetween k l s := by
  rw [Bool.eq_iff_iff, beq_iff_eq, Segment.ofKeys_eq_ofKeys_iff, runsBetween_iff]

end Sides

end Triangle

/-! ## The triangles of a mesh -/

namespace Mesh

variable [BEq κ] [Hashable κ] [Keyed α κ]

/-- How many sides between two keys each of the live triangles has that have any. -/
def shares (m : Mesh α κ) (k l : PointKey κ) : List Nat :=
  (m.triangles.filter fun t => t.hasSide k l).map fun t => t.sidesBetween k l

theorem one_le_of_mem_shares {m : Mesh α κ} {k l : PointKey κ} {n : Nat} (h : n ∈ m.shares k l) :
    1 ≤ n := by
  obtain ⟨t, ht, rfl⟩ := List.mem_map.mp h
  exact Triangle.hasSide_iff.mp (List.mem_filter.mp ht).2

theorem length_shares (m : Mesh α κ) (k l : PointKey κ) :
    (m.shares k l).length = m.triangles.countP fun t => t.hasSide k l := by
  rw [shares, List.length_map, List.countP_eq_length_filter]

theorem sum_shares (m : Mesh α κ) (k l : PointKey κ) :
    (m.shares k l).sum = (m.triangles.map fun t => t.sidesBetween k l).sum := by
  rw [shares]
  induction m.triangles with
  | nil => rfl
  | cons t ts ih =>
      rw [List.map_cons, List.sum_cons, ← ih, List.filter_cons]
      cases ht : t.hasSide k l with
      | true => rw [if_pos rfl, List.map_cons, List.sum_cons]
      | false =>
          have hnone : t.sidesBetween k l = 0 := by
            by_contra hne
            rw [Triangle.hasSide_iff.mpr (Nat.one_le_iff_ne_zero.mpr hne)] at ht
            cases ht
          rw [if_neg Bool.false_ne_true, hnone, Nat.zero_add]

/-- Two triangles with a side are told apart by their handles. -/
theorem length_shares_eq_two_iff (m : Mesh α κ) (k l : PointKey κ) : (m.shares k l).length = 2 ↔
    ∃ id id', id ≠ id' ∧
      ∀ id'', (∃ t, m.get? id'' = some t ∧ t.hasSide k l = true) ↔ id'' = id ∨ id'' = id' := by
  have hlength : (m.shares k l).length =
      ((m.log.entries.filter fun e => e.2.hasSide k l).map Prod.fst).length := by
    rw [length_shares, ← map_snd_entries, List.countP_map, List.length_map,
      ← List.countP_eq_length_filter]
    rfl
  have hnodup := (TriangleLog.pairwise_map_filter_entries m.length_log_le
    fun t => t.hasSide k l).imp fun h heq => UInt32.ne_of_lt h (congrArg TriangleHandle.slot heq)
  rw [hlength, length_eq_two_iff_exists hnodup]
  simp only [TriangleLog.mem_map_filter_entries m.length_log_le fun t => t.hasSide k l, get?_eq_log]

section Spread

variable [LawfulBEq κ]

/-- Unless a triangle has a doubled corner, none has two sides in one place. -/
theorem sum_shares_eq_length_iff (m : Mesh α κ) :
    (∀ k l, (m.shares k l).sum = (m.shares k l).length) ↔
      ∀ t ∈ m.triangles, t.IsSpread (κ := κ) := by
  constructor
  · intro h t ht
    by_contra hspread
    obtain ⟨k, l, htwo⟩ := Triangle.exists_two_le_sidesBetween hspread
    have hside : t.hasSide k l = true := Triangle.hasSide_iff.mpr (by omega)
    have hone := (sum_eq_length_iff fun _ => one_le_of_mem_shares).mp (h k l) _
      (List.mem_map_of_mem (List.mem_filter.mpr ⟨ht, hside⟩))
    omega
  · intro h k l
    refine (sum_eq_length_iff fun _ => one_le_of_mem_shares).mpr fun n hn => ?_
    obtain ⟨t, ht, rfl⟩ := List.mem_map.mp hn
    exact ((h t (List.mem_filter.mp ht).1).sidesBetween_le_one k l).antisymm
      (one_le_of_mem_shares hn)

end Spread

variable [Ord κ]

/-- Each segment that is counted has its keys in order. -/
theorem exists_eq_ofKeys_of_mem {m : Mesh α κ} {s : Segment κ} (h : s ∈ m.sideSegments) :
    ∃ k l, s = Segment.ofKeys k l := by
  obtain ⟨⟨k, l⟩, -, rfl⟩ := List.mem_map.mp h
  exact ⟨k, l, rfl⟩

variable [LawfulBEq κ] [Std.OrientedOrd κ] [Std.LawfulEqOrd κ]

theorem mem_sideSegments {m : Mesh α κ} {k l : PointKey κ} :
    Segment.ofKeys k l ∈ m.sideSegments ↔ ∃ t ∈ m.triangles, t.hasSide k l = true := by
  simp only [sideSegments, directedSides, Triangle.allSides, List.map_map, List.mem_map,
    List.mem_flatMap, Triangle.hasSide, List.any_eq_true, ← Triangle.ofKeys_beq_ofKeys, beq_iff_eq]
  constructor
  · rintro ⟨s, ⟨t, ht, hs⟩, heq⟩
    exact ⟨t, ht, s, hs, heq⟩
  · rintro ⟨t, ht, s, hs, heq⟩
    exact ⟨s, ⟨t, ht, hs⟩, heq⟩

/-- The count of a segment adds up what the triangles have there. -/
theorem count_sideSegments_eq_sum (m : Mesh α κ) (k l : PointKey κ) :
    m.sideSegments.count (Segment.ofKeys k l) = (m.shares k l).sum := by
  rw [sum_shares, sideSegments, directedSides, Triangle.allSides, List.map_map, List.count,
    List.countP_map, List.countP_flatMap]
  simp only [Function.comp_def, Prod.map_fst, Prod.map_snd, Triangle.ofKeys_beq_ofKeys]
  rfl

theorem isManifold_iff_shares (m : Mesh α κ) : m.isManifold = true ↔
    ∀ k l, (∃ t ∈ m.triangles, t.hasSide k l = true) →
      m.shares k l = [1, 1] ∨ m.shares k l = [2] := by
  rw [isManifold_iff_count_eq_two]
  constructor
  · intro h k l hside
    rw [← sum_eq_two_iff fun _ => one_le_of_mem_shares, ← count_sideSegments_eq_sum]
    exact h _ (mem_sideSegments.mpr hside)
  · intro h s hs
    obtain ⟨k, l, rfl⟩ := exists_eq_ofKeys_of_mem hs
    rw [count_sideSegments_eq_sum, sum_eq_two_iff fun _ => one_le_of_mem_shares]
    exact h k l (mem_sideSegments.mp hs)

/-- The segments with a count are the sides of the live triangles, and the count adds up how many
sides each triangle has there. It is the number of triangles with that side, for all segments, just
when no live triangle has a doubled corner. A mesh is manifold when each segment has one side of two
triangles or two sides of one; where no corner is doubled, when each is a side of two triangles. -/
theorem sideCounts_exact (m : Mesh α κ) :
    (∀ s, s ∈ m.sideCounts ↔
      ∃ k l, s = Segment.ofKeys k l ∧ ∃ t ∈ m.triangles, t.hasSide k l = true) ∧
    (∀ k l, m.sideCounts.getD (Segment.ofKeys k l) 0 =
      (m.triangles.map fun t => t.sidesBetween k l).sum) ∧
    ((∀ k l, m.sideCounts.getD (Segment.ofKeys k l) 0 =
        m.triangles.countP fun t => t.hasSide k l) ↔
      ∀ t ∈ m.triangles, t.IsSpread (κ := κ)) ∧
    (m.isManifold = true ↔ ∀ k l, (∃ t ∈ m.triangles, t.hasSide k l = true) →
      m.shares k l = [1, 1] ∨ m.shares k l = [2]) ∧
    ((∀ t ∈ m.triangles, t.IsSpread (κ := κ)) → (m.isManifold = true ↔
      ∀ k l, (∃ t ∈ m.triangles, t.hasSide k l = true) →
        ∃ id id', id ≠ id' ∧ ∀ id'',
          (∃ t, m.get? id'' = some t ∧ t.hasSide k l = true) ↔ id'' = id ∨ id'' = id')) := by
  have hcount : ∀ k l, m.sideCounts.getD (Segment.ofKeys k l) 0 = (m.shares k l).sum := by
    intro k l
    rw [getD_sideCounts, count_sideSegments_eq_sum]
  refine ⟨fun s => ?_, fun k l => (hcount k l).trans (m.sum_shares k l), ?_,
    m.isManifold_iff_shares, fun hspread => ?_⟩
  · rw [mem_sideCounts]
    constructor
    · intro hs
      obtain ⟨k, l, rfl⟩ := exists_eq_ofKeys_of_mem hs
      exact ⟨k, l, rfl, mem_sideSegments.mp hs⟩
    · rintro ⟨k, l, rfl, hside⟩
      exact mem_sideSegments.mpr hside
  · simp only [hcount, ← length_shares]
    exact m.sum_shares_eq_length_iff
  · rw [isManifold_iff_shares]
    refine forall₂_congr fun k l => imp_congr_right fun _ => ?_
    have hone := m.sum_shares_eq_length_iff.mpr hspread k l
    rw [← length_shares_eq_two_iff, ← hone, sum_eq_two_iff fun _ => one_le_of_mem_shares]

/-- Two triangles, each folded onto one segment, which they do not share. The origin is written with
either zero. -/
def foldedPair : List (Triangle Float) :=
  [⟨⟨0, 0, 0⟩, ⟨-0.0, 0, 0⟩, ⟨1, 0, 0⟩⟩, ⟨⟨0, 0, 0⟩, ⟨0, -0.0, 0⟩, ⟨0, 1, 0⟩⟩]

theorem sideCounts_exact_foldedPair :
    let m : Mesh Float UInt64 := ofList foldedPair (by decide)
    let k := PointKey.ofPoint (⟨0, 0, 0⟩ : Point Float)
    let l := PointKey.ofPoint (⟨1, 0, 0⟩ : Point Float)
    m.sideCounts.getD (Segment.ofKeys k l) 0 = 2 ∧
      (m.triangles.countP fun t => t.hasSide k l) = 1 ∧ m.isManifold = true := by
  intro m k l
  obtain ⟨-, hcount, -⟩ := sideCounts_exact m
  refine ⟨?_, by decide +kernel, m.isManifold_iff_count_eq_two.mpr (by decide +kernel)⟩
  rw [hcount]
  decide +kernel

end Mesh

end SolidSurface
