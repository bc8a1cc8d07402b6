import Mathlib.Algebra.BigOperators.Intervals
import Mathlib.Algebra.Order.BigOperators.Group.Finset
import Mathlib.Tactic.Ring
import SolidSurface.Proofs.DirectedPairs
import SolidSurface.Proofs.Lattice.Border

/-! # Sums over a lattice

The points with coordinates below those of `n` form a box. A sum of differences between a point and
the next one along an axis telescopes to the two ends of the box, and is zero when nothing is left
there.
-/

namespace SolidSurface

open Finset DualContour

/-- The sum of `f` over all lattice points with coordinates below those of `n`. -/
def latticeSum (n : Vec3 Nat) (f : LatticePoint → ℤ) : ℤ :=
  ∑ z ∈ range n.z, ∑ y ∈ range n.y, ∑ x ∈ range n.x, f ⟨x, y, z⟩

theorem latticeSum_congr {n : Vec3 Nat} {f g : LatticePoint → ℤ}
    (h : ∀ p : LatticePoint, p.Below n → f p = g p) : latticeSum n f = latticeSum n g := by
  refine sum_congr rfl fun z hz => sum_congr rfl fun y hy => sum_congr rfl fun x hx => ?_
  exact h ⟨x, y, z⟩ ⟨mem_range.mp hx, mem_range.mp hy, mem_range.mp hz⟩

theorem latticeSum_add (n : Vec3 Nat) (f g : LatticePoint → ℤ) :
    latticeSum n (fun p => f p + g p) = latticeSum n f + latticeSum n g := by
  simp only [latticeSum, sum_add_distrib]

theorem sum_map_range (m : Nat) (f : Nat → ℤ) :
    ((List.range m).map f).sum = ∑ i ∈ range m, f i := by
  induction m with
  | zero => rfl
  | succ m ih => rw [List.range_succ, List.map_append, List.sum_append, ih, sum_range_succ]; simp

theorem pairSum_flatMapBelow {β : Type} (w : β → β → ℤ) (n : Vec3 Nat)
    (f : LatticePoint → List (β × β)) :
    pairSum w (LatticePoint.flatMapBelow n f) = latticeSum n fun p => pairSum w (f p) := by
  simp only [LatticePoint.flatMapBelow, latticeSum, pairSum_flatMap, sum_map_range]

theorem sum_map_flatMap {β δ : Type} (w : β → ℤ) (l : List δ) (f : δ → List β) :
    ((l.flatMap f).map w).sum = (l.map fun d => ((f d).map w).sum).sum := by
  induction l with
  | nil => rfl
  | cons d l ih => rw [List.flatMap_cons, List.map_append, List.sum_append, ih]; rfl

theorem sum_map_flatMapBelow {β : Type} (w : β → ℤ) (n : Vec3 Nat) (f : LatticePoint → List β) :
    ((LatticePoint.flatMapBelow n f).map w).sum = latticeSum n fun p => ((f p).map w).sum := by
  simp only [LatticePoint.flatMapBelow, latticeSum, sum_map_flatMap, sum_map_range]

/-- Counting through a layer is counting through its rows. -/
theorem sum_range_pointAt (width height k : Nat) (f : LatticePoint → ℤ) :
    ∑ i ∈ range (width * height), f (pointAt width k i) =
      ∑ y ∈ range height, ∑ x ∈ range width, f ⟨x, y, k⟩ := by
  induction height with
  | zero => simp
  | succ height ih =>
      rw [Nat.mul_succ, sum_range_add, ih, sum_range_succ]
      congr 1
      refine sum_congr rfl fun x hx => ?_
      have hindex := LatticePoint.pointAt_index (p := ⟨x, height, k⟩) (mem_range.mp hx)
      rw [Nat.add_comm, hindex]

/-- Leaving out a first summand that is zero. -/
theorem sum_range_eq_sum_succ {f : Nat → ℤ} {m : Nat} (h : 0 < m → f 0 = 0) :
    ∑ i ∈ range m, f i = ∑ i ∈ range (m - 1), f (i + 1) := by
  cases m with
  | zero => rfl
  | succ m => rw [sum_range_succ', h m.succ_pos, add_zero, Nat.add_sub_cancel]

/-- Leaving out a first summand and taking in a last one, both zero. -/
theorem sum_range_eq_sum_shift {f : Nat → ℤ} {m : Nat} (h : 0 < m → f 0 = 0 ∧ f m = 0) :
    ∑ i ∈ range m, f i = ∑ i ∈ range m, f (i + 1) := by
  rcases Nat.eq_zero_or_pos m with rfl | hm
  · rfl
  · have hsplit := sum_range_succ f m
    rw [sum_range_succ', (h hm).1, (h hm).2, add_zero, add_zero] at hsplit
    exact hsplit.symm

/-! ## Telescoping -/

/-- Differences along a line of points leave only its two ends. -/
theorem sum_line_eq_zero {m : Nat} {f : LatticePoint → ℤ} (line : Nat → LatticePoint)
    (h : 0 < m → f (line 0) = 0 ∧ f (line m) = 0) :
    ∑ i ∈ range m, (f (line i) - f (line (i + 1))) = 0 := by
  rw [sum_range_sub' fun i => f (line i)]
  rcases Nat.eq_zero_or_pos m with rfl | hm
  · exact sub_self _
  · rw [(h hm).1, (h hm).2, sub_zero]

theorem latticeSum_sub_stepForward_eq_zero {n : Vec3 Nat} (a : Axis) {f : LatticePoint → ℤ}
    (h : ∀ p : LatticePoint, 0 < n.get a → (∀ b, b ≠ a → p.get b < n.get b) →
      p.get a = 0 ∨ p.get a = n.get a → f p = 0) :
    latticeSum n (fun p => f p - f (stepForward p a)) = 0 := by
  cases a with
  | x =>
      refine sum_eq_zero fun z hz => sum_eq_zero fun y hy => sum_line_eq_zero (⟨·, y, z⟩) ?_
      intro hpos
      have hother : ∀ x, ∀ b, b ≠ Axis.x → (⟨x, y, z⟩ : LatticePoint).get b < n.get b := by
        rintro x (_ | _ | _) hb
        · exact absurd rfl hb
        · exact mem_range.mp hy
        · exact mem_range.mp hz
      exact ⟨h _ hpos (hother 0) (.inl rfl), h _ hpos (hother n.x) (.inr rfl)⟩
  | y =>
      refine sum_eq_zero fun z hz => ?_
      rw [sum_comm]
      refine sum_eq_zero fun x hx => sum_line_eq_zero (⟨x, ·, z⟩) ?_
      intro hpos
      have hother : ∀ y, ∀ b, b ≠ Axis.y → (⟨x, y, z⟩ : LatticePoint).get b < n.get b := by
        rintro y (_ | _ | _) hb
        · exact mem_range.mp hx
        · exact absurd rfl hb
        · exact mem_range.mp hz
      exact ⟨h _ hpos (hother 0) (.inl rfl), h _ hpos (hother n.y) (.inr rfl)⟩
  | z =>
      rw [latticeSum, sum_comm]
      refine sum_eq_zero fun y hy => ?_
      rw [sum_comm]
      refine sum_eq_zero fun x hx => sum_line_eq_zero (⟨x, y, ·⟩) ?_
      intro hpos
      have hother : ∀ z, ∀ b, b ≠ Axis.z → (⟨x, y, z⟩ : LatticePoint).get b < n.get b := by
        rintro z (_ | _ | _) hb
        · exact mem_range.mp hx
        · exact mem_range.mp hy
        · exact absurd rfl hb
      exact ⟨h _ hpos (hother 0) (.inl rfl), h _ hpos (hother n.z) (.inr rfl)⟩

/-- What leaves a point along an axis enters the next one, so a flux that vanishes on the border of
the box sums to nothing. -/
theorem latticeSum_flux_eq_zero {n : Vec3 Nat} {P : Axis → LatticePoint → ℤ}
    (h : ∀ a (p : LatticePoint), 0 < n.get a → (∀ b, b ≠ a → p.get b < n.get b) →
      p.get a = 0 ∨ p.get a = n.get a → P a p = 0) :
    latticeSum n (fun p => (P .x p - P .x (stepForward p .x)) +
      (P .y p - P .y (stepForward p .y)) + (P .z p - P .z (stepForward p .z))) = 0 := by
  rw [latticeSum_add, latticeSum_add, latticeSum_sub_stepForward_eq_zero .x (h .x),
    latticeSum_sub_stepForward_eq_zero .y (h .y), latticeSum_sub_stepForward_eq_zero .z (h .z)]
  rfl

end SolidSurface
