import SolidSurface.Solid.Combination

/-! # Trees of combinations

A tree of combinations over given solids can be built, from the leaves up, or asked directly for the
Boolean combination of what its leaves answer. The boxes of the combinations enter only the first.
-/

namespace SolidSurface

inductive SolidTree (α : Type) where
  | leaf (s : Solid α)
  | union (parts : List (SolidTree α))
  | intersection (parts : List (SolidTree α))
  | difference (positive negative : SolidTree α)

namespace SolidTree

variable {α : Type}

mutual

/-- The solids at the leaves from left to right. -/
def leaves : SolidTree α → List (Solid α)
  | leaf s => [s]
  | union parts => leavesAll parts
  | intersection parts => leavesAll parts
  | difference positive negative => leaves positive ++ leaves negative

def leavesAll : List (SolidTree α) → List (Solid α)
  | [] => []
  | t :: ts => leaves t ++ leavesAll ts

end

mutual

/-- Whether every union and every intersection has an operand. -/
def isComplete : SolidTree α → Bool
  | leaf _ => true
  | union parts => !parts.isEmpty && areComplete parts
  | intersection parts => !parts.isEmpty && areComplete parts
  | difference positive negative => isComplete positive && isComplete negative

def areComplete : List (SolidTree α) → Bool
  | [] => true
  | t :: ts => isComplete t && areComplete ts

end

mutual

/-- The Boolean combination of what the leaves answer at a point. -/
def holds (p : Point α) : SolidTree α → Bool
  | leaf s => s.contains p
  | union parts => anyHolds p parts
  | intersection parts => allHold p parts
  | difference positive negative => holds p positive && !holds p negative

def anyHolds (p : Point α) : List (SolidTree α) → Bool
  | [] => false
  | t :: ts => holds p t || anyHolds p ts

def allHold (p : Point α) : List (SolidTree α) → Bool
  | [] => true
  | t :: ts => holds p t && allHold p ts

end

mutual

/-- The solid that a tree describes. -/
def build [Scalar α] : SolidTree α → Except (ConstructionError α) (Solid α)
  | leaf s => .ok s
  | union parts => do Solid.union (← buildAll parts)
  | intersection parts => do Solid.intersection (← buildAll parts)
  | difference positive negative => do
    return Solid.difference (← build positive) (← build negative)

def buildAll [Scalar α] : List (SolidTree α) → Except (ConstructionError α) (List (Solid α))
  | [] => .ok []
  | t :: ts => do return (← build t) :: (← buildAll ts)

end

end SolidTree

end SolidSurface
