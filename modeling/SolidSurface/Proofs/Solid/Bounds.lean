import SolidSurface.Proofs.Box
import SolidSurface.Proofs.Scalar.Comparison
import SolidSurface.Solid.Combination
import SolidSurface.Solid.Elementary

/-! # Bounds of combinations

A solid keeps its bounds if it is outside wherever they end. Combinations of such solids keep theirs,
and the question to its own box that a union or an intersection asks first changes no answer: the
box around several boxes holds the points of each, and the overlap of boxes the points of all.
-/

namespace SolidSurface

variable {α : Type} [Scalar α]

/-! ## Boxes whose coordinates are numbers -/

namespace Vec3

theorem beq_self_lesser {a b : α} (ha : (a == a) = true) (hb : (b == b) = true) :
    (lesser a b == lesser a b) = true := by
  by_cases h : a ≤ b
  · rwa [lesser, if_pos h]
  · rwa [lesser, if_neg h]

theorem beq_self_greater {a b : α} (ha : (a == a) = true) (hb : (b == b) = true) :
    (greater a b == greater a b) = true := by
  by_cases h : b ≤ a
  · rwa [greater, if_pos h]
  · rwa [greater, if_neg h]

end Vec3

namespace Box

variable {b c : Box α} {p : Point α}

/-- All coordinates of a box are numbers. Its corners need not be in their order. -/
structure IsNumeric (b : Box α) : Prop where
  lower (a : Axis) : (b.lower.get a == b.lower.get a) = true
  upper (a : Axis) : (b.upper.get a == b.upper.get a) = true

theorem isNumeric_iff : b.IsNumeric ↔ b.coincides b = true := by
  simp only [coincides, Vec3.coincides, Bool.and_eq_true]
  constructor
  · intro h
    exact ⟨⟨⟨h.lower .x, h.lower .y⟩, h.lower .z⟩, ⟨h.upper .x, h.upper .y⟩, h.upper .z⟩
  · rintro ⟨⟨⟨hx, hy⟩, hz⟩, ⟨hx', hy'⟩, hz'⟩
    refine ⟨fun a => ?_, fun a => ?_⟩
    · cases a with
      | x => exact hx
      | y => exact hy
      | z => exact hz
    · cases a with
      | x => exact hx'
      | y => exact hy'
      | z => exact hz'

instance : Decidable b.IsNumeric :=
  decidable_of_iff _ isNumeric_iff.symm

theorem IsNumeric.union (hb : b.IsNumeric) (hc : c.IsNumeric) : (b.union c).IsNumeric := by
  rw [Box.union]
  split_ifs
  · exact hc
  · exact hb
  · constructor
    · intro a
      rw [Vec3.inf, Vec3.get_zipWith]
      exact Vec3.beq_self_lesser (hb.lower a) (hc.lower a)
    · intro a
      rw [Vec3.sup, Vec3.get_zipWith]
      exact Vec3.beq_self_greater (hb.upper a) (hc.upper a)

theorem IsNumeric.intersection (hb : b.IsNumeric) (hc : c.IsNumeric) :
    (b.intersection c).IsNumeric where
  lower a := by
    rw [Box.intersection, Vec3.sup, Vec3.get_zipWith]
    exact Vec3.beq_self_greater (hb.lower a) (hc.lower a)
  upper a := by
    rw [Box.intersection, Vec3.inf, Vec3.get_zipWith]
    exact Vec3.beq_self_lesser (hb.upper a) (hc.upper a)

/-- The overlap of two boxes holds the points of both, whatever their coordinates are. -/
theorem contains_intersection (hb : b.contains p = true) (hc : c.contains p = true) :
    (b.intersection c).contains p = true := by
  rw [contains_iff] at hb hc ⊢
  intro a
  rw [intersection, Vec3.sup, Vec3.inf, Vec3.get_zipWith, Vec3.get_zipWith, Vec3.greater,
    Vec3.lesser]
  constructor
  · split
    · exact (hb a).1
    · exact (hc a).1
  · split
    · exact (hb a).2
    · exact (hc a).2

end Box

section Comparable

variable [ComparableScalar α]

theorem Vec3.lesser_le {a b x : α} (ha : (a == a) = true) (hb : (b == b) = true)
    (h : a ≤ x ∨ b ≤ x) : lesser a b ≤ x := by
  by_cases hab : a ≤ b
  · rw [lesser, if_pos hab]
    exact h.elim id (ComparableScalar.le_trans hab)
  · rw [lesser, if_neg hab]
    have hba := (ComparableScalar.le_total ha hb).resolve_left hab
    exact h.elim (ComparableScalar.le_trans hba) id

theorem Vec3.le_greater {a b x : α} (ha : (a == a) = true) (hb : (b == b) = true)
    (h : x ≤ a ∨ x ≤ b) : x ≤ greater a b := by
  by_cases hba : b ≤ a
  · rw [greater, if_pos hba]
    exact h.elim id fun hxb => ComparableScalar.le_trans hxb hba
  · rw [greater, if_neg hba]
    have hab := (ComparableScalar.le_total ha hb).resolve_right hba
    exact h.elim (fun hxa => ComparableScalar.le_trans hxa hab) id

namespace Box

variable {b c : Box α} {bs : List (Box α)} {p : Point α}

theorem isEmpty_eq_false_of_contains (h : b.contains p = true) : b.isEmpty = false := by
  have hnot : ∀ a, ¬b.upper.get a < b.lower.get a := by
    intro a
    obtain ⟨hlower, hupper⟩ := contains_iff.mp h a
    exact ComparableScalar.not_lt_of_le (ComparableScalar.le_trans hlower hupper)
  simp only [isEmpty, Bool.or_eq_false_iff, decide_eq_false_iff_not]
  exact ⟨⟨hnot .x, hnot .y⟩, hnot .z⟩

/-- A box that holds a point is not empty, so the union does not leave it out. -/
theorem contains_union (hb : b.IsNumeric) (hc : c.IsNumeric)
    (h : b.contains p = true ∨ c.contains p = true) : (b.union c).contains p = true := by
  rw [Box.union]
  split_ifs with hbe hce
  · refine h.resolve_left fun hbp => ?_
    rw [isEmpty_eq_false_of_contains hbp] at hbe
    cases hbe
  · refine h.resolve_right fun hcp => ?_
    rw [isEmpty_eq_false_of_contains hcp] at hce
    cases hce
  · simp only [contains_iff] at h ⊢
    intro a
    rw [Vec3.inf, Vec3.sup, Vec3.get_zipWith, Vec3.get_zipWith]
    constructor
    · exact Vec3.lesser_le (hb.lower a) (hc.lower a) (h.imp (fun h => (h a).1) fun h => (h a).1)
    · exact Vec3.le_greater (hb.upper a) (hc.upper a) (h.imp (fun h => (h a).2) fun h => (h a).2)

theorem isNumeric_empty : (empty : Box α).IsNumeric where
  lower a := by cases a <;> exact ComparableScalar.infinity_beq_self
  upper a := by cases a <;> exact ComparableScalar.neg_infinity_beq_self

theorem foldl_union_spec {acc : Box α} (hacc : acc.IsNumeric) (hbs : ∀ b ∈ bs, b.IsNumeric) :
    (bs.foldl union acc).IsNumeric ∧
      ∀ p, (acc.contains p = true ∨ ∃ b ∈ bs, b.contains p = true) →
        (bs.foldl union acc).contains p = true := by
  induction bs generalizing acc with
  | nil => exact ⟨hacc, fun p h => h.elim id fun ⟨b, hb, _⟩ => absurd hb List.not_mem_nil⟩
  | cons b bs ih =>
      have hb := hbs b List.mem_cons_self
      obtain ⟨hnumeric, hholds⟩ := ih (hacc.union hb) fun c hc => hbs c (List.mem_cons_of_mem _ hc)
      refine ⟨hnumeric, fun p h => hholds p ?_⟩
      rcases h with hp | ⟨c, hc, hp⟩
      · exact .inl (contains_union hacc hb (.inl hp))
      · rcases List.mem_cons.mp hc with rfl | hc
        · exact .inl (contains_union hacc hb (.inr hp))
        · exact .inr ⟨c, hc, hp⟩

end Box

end Comparable

/-! ## Solids that keep their bounds -/

namespace Solid

/-- The bounds are numbers and the solid is outside wherever they end. -/
structure KeepsBounds (s : Solid α) : Prop where
  isNumeric : s.bounds.IsNumeric
  outside (p : Point α) : s.bounds.contains p = false → s.contains p = false

variable {s t u : Solid α} {parts : List (Solid α)} {p : Point α}

theorem KeepsBounds.contains_bounds (h : s.KeepsBounds) (hp : s.contains p = true) :
    s.bounds.contains p = true := by
  by_contra hout
  rw [h.outside p (Bool.eq_false_iff.mpr hout)] at hp
  cases hp

theorem KeepsBounds.difference (hs : s.KeepsBounds) : (difference s t).KeepsBounds where
  isNumeric := hs.isNumeric
  outside p hp := Bool.and_eq_false_imp.mpr fun hin => by
    rw [hs.outside p hp] at hin
    cases hin

theorem foldl_intersection_spec {b : Box α} (hb : b.IsNumeric)
    (hparts : ∀ s ∈ parts, s.KeepsBounds) :
    (parts.foldl (fun b s => b.intersection s.bounds) b).IsNumeric ∧
      ∀ p, b.contains p = true → (∀ s ∈ parts, s.contains p = true) →
        (parts.foldl (fun b s => b.intersection s.bounds) b).contains p = true := by
  induction parts generalizing b with
  | nil => exact ⟨hb, fun p hp _ => hp⟩
  | cons s parts ih =>
      have hs := hparts s List.mem_cons_self
      obtain ⟨hnumeric, hholds⟩ := ih (hb.intersection hs.isNumeric)
        fun t ht => hparts t (List.mem_cons_of_mem _ ht)
      refine ⟨hnumeric, fun p hp hall => hholds p ?_ fun t ht => hall t (List.mem_cons_of_mem _ ht)⟩
      exact Box.contains_intersection hp (hs.contains_bounds (hall s List.mem_cons_self))

/-- The box of an intersection is never the reason for an answer. -/
theorem intersection_spec (hparts : ∀ s ∈ parts, s.KeepsBounds) (hu : intersection parts = .ok u) :
    u.KeepsBounds ∧ ∀ p, u.contains p = parts.all fun s => s.contains p := by
  cases parts with
  | nil => cases hu
  | cons first rest =>
      cases hu
      have hfirst := hparts first List.mem_cons_self
      obtain ⟨hnumeric, hholds⟩ := foldl_intersection_spec hfirst.isNumeric
        fun s hs => hparts s (List.mem_cons_of_mem _ hs)
      refine ⟨⟨hnumeric, fun p hp => ?_⟩, fun p => Bool.and_eq_right_iff_imp.mpr fun hall => ?_⟩
      · simp only [hp, Bool.false_and]
      · rw [List.all_eq_true] at hall
        exact hholds p (hfirst.contains_bounds (hall first List.mem_cons_self))
          fun s hs => hall s (List.mem_cons_of_mem _ hs)

/-- The box of a union is never the reason for an answer. -/
theorem union_spec [ComparableScalar α] (hparts : ∀ s ∈ parts, s.KeepsBounds)
    (hu : union parts = .ok u) :
    u.KeepsBounds ∧ ∀ p, u.contains p = parts.any fun s => s.contains p := by
  cases parts with
  | nil => cases hu
  | cons first rest =>
      cases hu
      have hboxes : ∀ b ∈ (first :: rest).map bounds, b.IsNumeric := by
        intro b hb
        obtain ⟨s, hs, rfl⟩ := List.mem_map.mp hb
        exact (hparts s hs).isNumeric
      obtain ⟨hnumeric, hholds⟩ := Box.foldl_union_spec Box.isNumeric_empty hboxes
      refine ⟨⟨hnumeric, fun p hp => ?_⟩, fun p => Bool.and_eq_right_iff_imp.mpr fun hany => ?_⟩
      · simp only [hp, Bool.false_and]
      · obtain ⟨s, hs, hp⟩ := List.any_eq_true.mp hany
        exact hholds p (.inr ⟨_, List.mem_map_of_mem hs, (hparts s hs).contains_bounds hp⟩)

end Solid

/-- A cuboid is its own bounds. -/
theorem Cuboid.keepsBounds (c : Cuboid α) (h : c.bounds.IsNumeric) : c.solid.KeepsBounds :=
  ⟨h, fun _ hp => hp⟩

end SolidSurface
