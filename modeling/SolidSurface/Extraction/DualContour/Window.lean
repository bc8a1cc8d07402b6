import SolidSurface.Extraction.Lattice

/-! # The window of resident layers

A sweep through the layers `0 ≤ k < nz` keeps only the layers `start ≤ k < stop` in memory. There
are `rows` slots for them and layer `k` lives in slot `k % rows`. When the window moves on, its last
two layers become its first two.
-/

namespace SolidSurface.DualContour

structure Window where
  rows : Nat
  start : Nat
  stop : Nat
  deriving DecidableEq, Repr

namespace Window

/-- The window at the start of a sweep. -/
def first (rows : Nat) : Window :=
  ⟨rows, 0, rows⟩

def slot (w : Window) (k : Nat) : Nat :=
  k % w.rows

/-- The layer in a slot, if a resident one is there. -/
def layer? (w : Window) (slot : Nat) : Option Nat :=
  let k := w.start + (slot + w.rows - w.start % w.rows) % w.rows
  if k < w.stop then some k else none

/-- The resident layers in order. -/
def layers (w : Window) : List Nat :=
  List.range' w.start (w.stop - w.start)

/-- The next window of a sweep through `nz` layers. -/
def shift (nz : Nat) (w : Window) : Window :=
  let start := w.stop - 2
  ⟨w.rows, start, min (start + w.rows) nz⟩

/-- The layers that a shift brings in. -/
def entering (nz : Nat) (w : Window) : List Nat :=
  List.range' w.stop ((w.shift nz).stop - w.stop)

/-- A window that reaches the last layer or has enough rows to move on. -/
def Advances (nz : Nat) (w : Window) : Prop :=
  3 ≤ w.rows ∨ nz ≤ w.stop

theorem stop_lt_stop_shift {nz : Nat} {w : Window} (h : w.Advances nz) (hw : w.stop < nz) :
    w.stop < (w.shift nz).stop := by
  simp only [Advances] at h
  simp only [shift]
  omega

theorem Advances.shift {nz : Nat} {w : Window} (h : w.Advances nz) (hw : w.stop < nz) :
    (w.shift nz).Advances nz := by
  simp only [Advances, Window.shift] at h ⊢
  omega

/-- The number of slots that a request is granted: at least four, as fewer could not move on, and
never more than there are layers. -/
def grantedRows (nz requested : Nat) : Nat :=
  min (max requested 4) nz

theorem first_advances (nz requested : Nat) : (first (grantedRows nz requested)).Advances nz := by
  simp only [Advances, first, grantedRows]
  omega

end Window

end SolidSurface.DualContour
