import Mathlib.Algebra.BigOperators.Group.List.Basic
import Mathlib.Tactic.Ring

/-! # Directed pairs

A list of directed pairs is balanced when each pair is met as often as its reverse. Balance is
tested with alternating weights: on a balanced list each of them sums to zero, and sums follow the
lists through appending, mapping and regrouping, where counts would not.
-/

namespace SolidSurface

variable {β γ δ : Type}

/-- A weight that changes its sign when a pair is turned around. -/
def Alternating (w : β → β → ℤ) : Prop :=
  ∀ u v, w v u = -w u v

theorem Alternating.comp {w : γ → γ → ℤ} (hw : Alternating w) (f : β → γ) :
    Alternating fun u v => w (f u) (f v) :=
  fun u v => hw (f u) (f v)

/-! ## Sums over pairs -/

def pairSum (w : β → β → ℤ) (l : List (β × β)) : ℤ :=
  (l.map fun s => w s.1 s.2).sum

@[simp] theorem pairSum_nil (w : β → β → ℤ) : pairSum w [] = 0 := rfl

@[simp] theorem pairSum_cons (w : β → β → ℤ) (s : β × β) (l : List (β × β)) :
    pairSum w (s :: l) = w s.1 s.2 + pairSum w l := by
  simp [pairSum]

@[simp] theorem pairSum_append (w : β → β → ℤ) (l m : List (β × β)) :
    pairSum w (l ++ m) = pairSum w l + pairSum w m := by
  simp [pairSum]

theorem pairSum_flatMap (w : β → β → ℤ) (l : List δ) (f : δ → List (β × β)) :
    pairSum w (l.flatMap f) = (l.map fun d => pairSum w (f d)).sum := by
  induction l with
  | nil => rfl
  | cons d l ih => simp [List.flatMap_cons, ih]

theorem pairSum_map (w : γ → γ → ℤ) (f : β → γ) (l : List (β × β)) :
    pairSum w (l.map (Prod.map f f)) = pairSum (fun u v => w (f u) (f v)) l := by
  simp [pairSum, Function.comp_def]

theorem pairSum_perm (w : β → β → ℤ) {l m : List (β × β)} (h : l.Perm m) :
    pairSum w l = pairSum w m :=
  (h.map _).sum_eq

theorem pairSum_map_swap {w : β → β → ℤ} (hw : Alternating w) (l : List (β × β)) :
    pairSum w (l.map Prod.swap) = -pairSum w l := by
  induction l with
  | nil => rfl
  | cons s l ih =>
      rw [List.map_cons, pairSum_cons, pairSum_cons, ih, Prod.fst_swap, Prod.snd_swap,
        hw s.1 s.2]
      ring

/-! ## Balance -/

/-- On a balanced list every alternating weight sums to zero. -/
def Balanced (l : List (β × β)) : Prop :=
  ∀ w, Alternating w → pairSum w l = 0

theorem Balanced.map {l : List (β × β)} (h : Balanced l) (f : β → γ) :
    Balanced (l.map (Prod.map f f)) := by
  intro w hw
  rw [pairSum_map]
  exact h _ (hw.comp f)

/-- A list that is a rearrangement of its reverse pairs is balanced. -/
theorem Balanced.of_perm_swap {l : List (β × β)} (h : l.Perm (l.map Prod.swap)) :
    Balanced l := by
  intro w hw
  have hsum := pairSum_perm w h
  rw [pairSum_map_swap hw] at hsum
  omega

section Count

variable [BEq β]

/-- Counts one for the pair from `a` to `b` and minus one for its reverse. -/
def pairSign (a b u v : β) : ℤ :=
  (if (u, v) == (a, b) then 1 else 0) - (if (u, v) == (b, a) then 1 else 0)

theorem pairSign_alternating [LawfulBEq β] (a b : β) : Alternating (pairSign a b) := by
  intro u v
  have hfwd : ((v, u) == (a, b)) = ((u, v) == (b, a)) := by
    rw [Bool.eq_iff_iff, beq_iff_eq, beq_iff_eq, Prod.mk.injEq, Prod.mk.injEq, and_comm]
  have hbwd : ((v, u) == (b, a)) = ((u, v) == (a, b)) := by
    rw [Bool.eq_iff_iff, beq_iff_eq, beq_iff_eq, Prod.mk.injEq, Prod.mk.injEq, and_comm]
  simp only [pairSign, hfwd, hbwd]
  ring

theorem pairSum_pairSign (a b : β) (l : List (β × β)) :
    pairSum (pairSign a b) l = l.count (a, b) - l.count (b, a) := by
  induction l with
  | nil => simp
  | cons s l ih =>
      rw [pairSum_cons, ih, pairSign, List.count_cons, List.count_cons]
      push_cast
      ring

/-- In a balanced list each pair is met as often as its reverse. -/
theorem Balanced.count_eq [LawfulBEq β] {l : List (β × β)} (h : Balanced l) (a b : β) :
    l.count (a, b) = l.count (b, a) := by
  have hsum := h _ (pairSign_alternating a b)
  rw [pairSum_pairSign] at hsum
  omega

end Count

end SolidSurface
