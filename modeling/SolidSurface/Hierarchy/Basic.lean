import SolidSurface.Box

/-! # Hierarchies

A hierarchy is a binary tree with objects at its leaves, at least one. Its objects are read from
left to right.
-/

namespace SolidSurface

inductive Hierarchy (β : Type) where
  | leaf (b : β)
  | branch (left right : Hierarchy β)
  deriving DecidableEq, Repr

namespace Hierarchy

variable {α β γ : Type}

/-- Number of objects. -/
def size : Hierarchy β → Nat
  | leaf _ => 1
  | branch l r => l.size + r.size

/-- Number of nodes on the longest path from the root to a leaf. -/
def depth : Hierarchy β → Nat
  | leaf _ => 1
  | branch l r => 1 + max l.depth r.depth

def map (f : β → γ) : Hierarchy β → Hierarchy γ
  | leaf b => leaf (f b)
  | branch l r => branch (l.map f) (r.map f)

/-- The objects from left to right. -/
def toList : Hierarchy β → List β
  | leaf b => [b]
  | branch l r => l.toList ++ r.toList

def nodeCount : Hierarchy β → Nat
  | leaf _ => 1
  | branch l r => 1 + l.nodeCount + r.nodeCount

/-- Nodes of all trees of a stack. -/
def stackNodes : List (Hierarchy β) → Nat
  | [] => 0
  | h :: rest => h.nodeCount + stackNodes rest

/-- Visits the trees of a stack, the top one first, and puts the children of a branch back on it. -/
def visit : List (Hierarchy β) → List β
  | [] => []
  | leaf b :: rest => b :: visit rest
  | branch l r :: rest => visit (l :: r :: rest)
termination_by stack => stackNodes stack
decreasing_by
  all_goals simp only [stackNodes, nodeCount]; omega

@[simp] theorem visit_nil : visit ([] : List (Hierarchy β)) = [] := by
  rw [visit]

@[simp] theorem visit_leaf (b : β) (rest : List (Hierarchy β)) :
    visit (leaf b :: rest) = b :: visit rest := by
  rw [visit]

@[simp] theorem visit_branch (l r : Hierarchy β) (rest : List (Hierarchy β)) :
    visit (branch l r :: rest) = visit (l :: r :: rest) := by
  rw [visit]

/-- The objects from left to right, found with a stack. -/
def leaves (h : Hierarchy β) : List β :=
  visit [h]

/-- The nodes, each branch before its subtrees; a branch is shown as `none`. -/
def preorder : Hierarchy β → List (Option β)
  | leaf b => [some b]
  | branch l r => none :: (l.preorder ++ r.preorder)

/-- The box around all objects, given the box of each. -/
@[specialize] def bounds [Scalar α] (box : β → Box α) : Hierarchy β → Box α
  | leaf b => box b
  | branch l r => (l.bounds box).union (r.bounds box)

theorem size_eq_length_toList (h : Hierarchy β) : h.size = h.toList.length := by
  induction h with
  | leaf b => rfl
  | branch l r hl hr => simp [size, toList, hl, hr]

theorem size_pos (h : Hierarchy β) : 0 < h.size := by
  induction h with
  | leaf b => exact Nat.one_pos
  | branch l r hl _ => exact Nat.add_pos_left hl _

end Hierarchy

end SolidSurface
