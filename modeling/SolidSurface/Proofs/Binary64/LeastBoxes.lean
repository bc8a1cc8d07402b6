import SolidSurface.Proofs.Binary64.Units
import SolidSurface.Proofs.Solid.Bounds

/-! # Unions in any order

The union leaves out an empty operand and returns the other one as it is, so unions of empty boxes
depend on the order. What a union of boxes of floats holds does not: however the unions are ordered
and grouped, the result is the least box that holds the points of all boxes, and if it holds any
points, its corners are determined up to the signs of zeros.
-/

namespace SolidSurface

namespace Binary64

variable {x y : Float}

theorem le_self_of_beq_self (hx : (x == x) = true) : x ≤ x :=
  (le_total_of_beq_self hx hx).elim id id

/-- The second of two values bounds the lesser one, also where the first is not a number. -/
theorem lesser_le_right (h : (Vec3.lesser x y == Vec3.lesser x y) = true) :
    Vec3.lesser x y ≤ y := by
  by_cases hle : x ≤ y
  · rwa [Vec3.lesser, if_pos hle]
  · rw [Vec3.lesser, if_neg hle] at h ⊢
    exact le_self_of_beq_self h

theorem right_le_greater (h : (Vec3.greater x y == Vec3.greater x y) = true) :
    y ≤ Vec3.greater x y := by
  by_cases hle : y ≤ x
  · rwa [Vec3.greater, if_pos hle]
  · rw [Vec3.greater, if_neg hle] at h ⊢
    exact le_self_of_beq_self h

end Binary64

namespace Box

/-- A box that results from uniting the boxes in the list in some order and some grouping. -/
inductive IsUnion {α : Type} [Scalar α] : List (Box α) → Box α → Prop
  | empty : IsUnion [] empty
  | single (b : Box α) : IsUnion [b] b
  | union {bs cs : List (Box α)} {b c : Box α} (left : IsUnion bs b) (right : IsUnion cs c) :
      IsUnion (bs ++ cs) (b.union c)
  | perm {bs cs : List (Box α)} {b : Box α} (hperm : bs.Perm cs) (h : IsUnion bs b) :
      IsUnion cs b

/-- Every point of `c` lies in `b`. -/
def HoldsPointsOf {α : Type} [Scalar α] (b c : Box α) : Prop :=
  ∀ p, c.contains p = true → b.contains p = true

section Scalar

variable {α : Type} [Scalar α] {b : Box α} {bs : List (Box α)}

section Objects

variable {β : Type} {xs : List β} {boxes : β → List (Box α)} {box : β → Box α}

theorem IsUnion.foldl_union {acc : Box α} (hacc : IsUnion bs acc)
    (h : ∀ x ∈ xs, IsUnion (boxes x) (box x)) :
    IsUnion (bs ++ xs.flatMap boxes) ((xs.map box).foldl Box.union acc) := by
  induction xs generalizing bs acc with
  | nil => rwa [List.flatMap_nil, List.append_nil]
  | cons x xs ih =>
      rw [List.flatMap_cons, List.map_cons, List.foldl_cons, ← List.append_assoc]
      exact ih (hacc.union (h x List.mem_cons_self)) fun y hy => h y (List.mem_cons_of_mem _ hy)

/-- Unions of unions are unions of all the boxes. -/
theorem isUnion_unionAll_flatMap (h : ∀ x ∈ xs, IsUnion (boxes x) (box x)) :
    IsUnion (xs.flatMap boxes) (unionAll (xs.map box)) :=
  IsUnion.empty.foldl_union h

end Objects

theorem isUnion_unionAll (bs : List (Box α)) : IsUnion bs (unionAll bs) := by
  have h := isUnion_unionAll_flatMap fun b (_ : b ∈ bs) => IsUnion.single b
  rwa [List.flatMap_singleton', List.map_id'] at h

theorem IsUnion.isNumeric [ComparableScalar α] (h : IsUnion bs b) (hbs : ∀ c ∈ bs, c.IsNumeric) :
    b.IsNumeric := by
  induction h with
  | empty => exact isNumeric_empty
  | single b => exact hbs b (List.mem_singleton_self b)
  | union _ _ ihl ihr =>
      exact (ihl fun c hc => hbs c (List.mem_append_left _ hc)).union
        (ihr fun c hc => hbs c (List.mem_append_right _ hc))
  | perm hperm _ ih => exact ih fun c hc => hbs c (hperm.mem_iff.mp hc)

/-- A union holds the points of every box that went into it. -/
theorem IsUnion.holdsPointsOf [ComparableScalar α] (h : IsUnion bs b)
    (hbs : ∀ c ∈ bs, c.IsNumeric) {c : Box α} (hc : c ∈ bs) : b.HoldsPointsOf c := by
  induction h with
  | empty => cases hc
  | single b =>
      rw [List.mem_singleton.mp hc]
      exact fun p hp => hp
  | @union bs cs b d left right ihl ihr =>
      have hl : ∀ c ∈ bs, c.IsNumeric := fun c hc => hbs c (List.mem_append_left _ hc)
      have hr : ∀ c ∈ cs, c.IsNumeric := fun c hc => hbs c (List.mem_append_right _ hc)
      intro p hp
      refine contains_union (left.isNumeric hl) (right.isNumeric hr) ?_
      rcases List.mem_append.mp hc with hc | hc
      · exact .inl (ihl hl hc p hp)
      · exact .inr (ihr hr hc p hp)
  | perm hperm _ ih =>
      exact ih (fun c hc => hbs c (hperm.mem_iff.mp hc)) (hperm.mem_iff.mpr hc)

end Scalar

/-! ## The least box -/

open Binary64

variable {b c r s : Box Float} {bs : List (Box Float)}

theorem lower_le_upper_of_isEmpty_eq_false (hb : b.IsNumeric) (hne : b.isEmpty = false)
    (a : Axis) : b.lower.get a ≤ b.upper.get a := by
  obtain ⟨m, hm, -⟩ := beq_iff.mp (hb.lower a)
  obtain ⟨n, hn, -⟩ := beq_iff.mp (hb.upper a)
  rw [le_iff_of_units hm hn]
  by_contra hlt
  have hempty : b.isEmpty = true :=
    isEmpty_iff.mpr ⟨a, (lt_iff_of_units hn hm).mpr (not_le.mp hlt)⟩
  rw [hne] at hempty
  cases hempty

/-- A box of numbers that is not empty holds its own corners. -/
theorem contains_corners (hb : b.IsNumeric) (hne : b.isEmpty = false) :
    b.contains b.lower = true ∧ b.contains b.upper = true := by
  have hle := lower_le_upper_of_isEmpty_eq_false hb hne
  exact ⟨contains_iff.mpr fun a => ⟨le_self_of_beq_self (hb.lower a), hle a⟩,
    contains_iff.mpr fun a => ⟨hle a, le_self_of_beq_self (hb.upper a)⟩⟩

theorem holdsPointsOf_of_isEmpty (hc : c.isEmpty = true) : b.HoldsPointsOf c := by
  intro p hp
  rw [isEmpty_eq_false_of_contains hp] at hc
  cases hc

/-- A box that holds the points of two boxes holds those of their union. -/
theorem HoldsPointsOf.union (hb : b.IsNumeric) (hc : c.IsNumeric) (hrb : r.HoldsPointsOf b)
    (hrc : r.HoldsPointsOf c) : r.HoldsPointsOf (b.union c) := by
  by_cases hbe : b.isEmpty = true
  · rwa [Box.union, if_pos hbe]
  by_cases hce : c.isEmpty = true
  · rwa [Box.union, if_neg hbe, if_pos hce]
  rw [Bool.not_eq_true] at hbe hce
  -- It holds the corners of both, and the corners of the union take their coordinates from these.
  obtain ⟨hbl, hbu⟩ := contains_corners hb hbe
  obtain ⟨hcl, hcu⟩ := contains_corners hc hce
  have hbl := contains_iff.mp (hrb _ hbl)
  have hbu := contains_iff.mp (hrb _ hbu)
  have hcl := contains_iff.mp (hrc _ hcl)
  have hcu := contains_iff.mp (hrc _ hcu)
  intro p hp
  rw [Box.union, hbe, hce, if_neg Bool.false_ne_true, if_neg Bool.false_ne_true] at hp
  rw [contains_iff] at hp ⊢
  intro a
  obtain ⟨hlower, hupper⟩ := hp a
  rw [Vec3.inf, Vec3.get_zipWith, Vec3.lesser] at hlower
  rw [Vec3.sup, Vec3.get_zipWith, Vec3.greater] at hupper
  constructor
  · split at hlower
    · exact Binary64.le_trans (hbl a).1 hlower
    · exact Binary64.le_trans (hcl a).1 hlower
  · split at hupper
    · exact Binary64.le_trans hupper (hbu a).2
    · exact Binary64.le_trans hupper (hcu a).2

theorem isEmpty_empty : (empty : Box Float).isEmpty = true := by
  decide +kernel

/-- Any box, whatever its coordinates, that holds the points of all boxes holds those of a union of
them. -/
theorem IsUnion.holdsPointsOf_of_forall (h : IsUnion bs b) (hbs : ∀ c ∈ bs, c.IsNumeric)
    (hr : ∀ c ∈ bs, r.HoldsPointsOf c) : r.HoldsPointsOf b := by
  induction h with
  | empty => exact holdsPointsOf_of_isEmpty isEmpty_empty
  | single b => exact hr b (List.mem_singleton_self b)
  | union left right ihl ihr =>
      have hl := fun c hc => hbs c (List.mem_append_left _ hc)
      have hr' := fun c hc => hbs c (List.mem_append_right _ hc)
      exact .union (left.isNumeric hl) (right.isNumeric hr')
        (ihl hl fun c hc => hr c (List.mem_append_left _ hc))
        (ihr hr' fun c hc => hr c (List.mem_append_right _ hc))
  | perm hperm _ ih =>
      exact ih (fun c hc => hbs c (hperm.mem_iff.mp hc)) fun c hc => hr c (hperm.mem_iff.mp hc)

/-! ## Equal corners -/

/-- Boxes that hold each other's points, and hold any, have the same corners. -/
theorem coincides_of_holdsPointsOf (hr : r.IsNumeric) (hs : s.IsNumeric)
    (hre : r.isEmpty = false) (hse : s.isEmpty = false) (hrs : r.HoldsPointsOf s)
    (hsr : s.HoldsPointsOf r) : r.coincides s = true := by
  obtain ⟨hrl, hru⟩ := contains_corners hr hre
  obtain ⟨hsl, hsu⟩ := contains_corners hs hse
  have hrl := contains_iff.mp (hsr _ hrl)
  have hru := contains_iff.mp (hsr _ hru)
  have hsl := contains_iff.mp (hrs _ hsl)
  have hsu := contains_iff.mp (hrs _ hsu)
  have hlower : ∀ a, (r.lower.get a == s.lower.get a) = true := fun a =>
    beq_of_le_of_le (hsl a).1 (hrl a).1
  have hupper : ∀ a, (r.upper.get a == s.upper.get a) = true := fun a =>
    beq_of_le_of_le (hru a).2 (hsu a).2
  simp only [coincides, Vec3.coincides, Bool.and_eq_true]
  exact ⟨⟨⟨hlower .x, hlower .y⟩, hlower .z⟩, ⟨hupper .x, hupper .y⟩, hupper .z⟩

/-- If some box holds a point, a union holds it too. -/
theorem IsUnion.isEmpty_eq_false (h : IsUnion bs r) (hbs : ∀ b ∈ bs, b.IsNumeric)
    (hsome : ∃ b ∈ bs, b.isEmpty = false) : r.isEmpty = false := by
  obtain ⟨b, hb, hne⟩ := hsome
  exact isEmpty_eq_false_of_contains
    (h.holdsPointsOf hbs hb _ (contains_corners (hbs b hb) hne).1)

/-- The order and the grouping of unions do not show in the corners, unless all boxes are empty. -/
theorem IsUnion.coincides (hr : IsUnion bs r) (hs : IsUnion bs s) (hbs : ∀ b ∈ bs, b.IsNumeric)
    (hsome : ∃ b ∈ bs, b.isEmpty = false) : r.coincides s = true :=
  coincides_of_holdsPointsOf (hr.isNumeric hbs) (hs.isNumeric hbs)
    (hr.isEmpty_eq_false hbs hsome) (hs.isEmpty_eq_false hbs hsome)
    (hs.holdsPointsOf_of_forall hbs fun _ hb => hr.holdsPointsOf hbs hb)
    (hr.holdsPointsOf_of_forall hbs fun _ hb => hs.holdsPointsOf hbs hb)

/-- If both are empty the union is the second one, whatever its corners are. -/
example :
    let b : Box Float := ⟨⟨1, 0, 0⟩, ⟨0, 0, 0⟩⟩
    let c : Box Float := ⟨⟨2, 0, 0⟩, ⟨0, 0, 0⟩⟩
    (b.union c).coincides (c.union b) = false := by
  decide +kernel

/-- Uniting no boxes yields the same empty box in all ways. -/
theorem IsUnion.eq_empty (h : IsUnion bs r) (hbs : bs = []) : r = Box.empty := by
  induction h with
  | empty => rfl
  | single b => cases hbs
  | union _ _ ihl ihr =>
      obtain ⟨hb, hc⟩ := List.append_eq_nil_iff.mp hbs
      rw [ihl hb, ihr hc, Box.union, if_pos isEmpty_empty]
  | perm hperm _ ih => exact ih (List.perm_nil.mp (hbs ▸ hperm))

theorem IsUnion.coincides_of_objects {β : Type} {box : β → Box Float} {xs : List β}
    (hr : IsUnion (xs.map box) r) (hs : IsUnion (xs.map box) s)
    (hnumeric : ∀ x ∈ xs, (box x).IsNumeric) (hsome : ∃ x ∈ xs, (box x).isEmpty = false) :
    r.coincides s = true := by
  obtain ⟨x, hx, hne⟩ := hsome
  exact hr.coincides hs (List.forall_mem_map.mpr hnumeric) ⟨box x, List.mem_map_of_mem hx, hne⟩

end Box

end SolidSurface
