import SolidSurface.Proofs.Solid.Bounds
import SolidSurface.Solid.Tree

/-! # Trees of combinations

If the leaves of a tree keep their bounds, so does the solid built from it, and it answers what the
tree answers without any box. Building fails only where an operand is missing.
-/

namespace SolidSurface.SolidTree

variable {α : Type}

/-! ## Lists of trees -/

section Lists

variable (ts : List (SolidTree α))

theorem leavesAll_eq_flatMap : leavesAll ts = ts.flatMap leaves := by
  induction ts with
  | nil => rfl
  | cons t ts ih => rw [leavesAll, ih, List.flatMap_cons]

theorem areComplete_eq_all : areComplete ts = ts.all isComplete := by
  induction ts with
  | nil => rfl
  | cons t ts ih => rw [areComplete, ih, List.all_cons]

theorem anyHolds_eq_any (p : Point α) : anyHolds p ts = ts.any (holds p) := by
  induction ts with
  | nil => rfl
  | cons t ts ih => rw [anyHolds, ih, List.any_cons]

theorem allHold_eq_all (p : Point α) : allHold p ts = ts.all (holds p) := by
  induction ts with
  | nil => rfl
  | cons t ts ih => rw [allHold, ih, List.all_cons]

end Lists

/-- Induction over trees, with the hypothesis for every operand of a union or an intersection. -/
@[elab_as_elim, induction_eliminator]
theorem induct {motive : SolidTree α → Prop} (leaf : ∀ s, motive (leaf s))
    (union : ∀ parts, (∀ t ∈ parts, motive t) → motive (union parts))
    (intersection : ∀ parts, (∀ t ∈ parts, motive t) → motive (intersection parts))
    (difference : ∀ positive negative, motive positive → motive negative →
      motive (difference positive negative)) :
    ∀ t, motive t := by
  refine @SolidTree.rec α motive (fun ts => ∀ t ∈ ts, motive t) leaf union intersection difference
    ?_ ?_
  · exact fun t ht => absurd ht List.not_mem_nil
  · intro t ts ht hts u hu
    rcases List.mem_cons.mp hu with rfl | hu
    · exact ht
    · exact hts u hu

/-! ## Building -/

variable [Scalar α] {t : SolidTree α} {ts : List (SolidTree α)}

theorem buildAll_cons (t : SolidTree α) (ts : List (SolidTree α)) :
    buildAll (t :: ts) = (build t).bind fun s => (buildAll ts).map (s :: ·) := by
  rw [buildAll]
  rfl

/-- A tree is built if it is complete, and otherwise the reason is a missing operand. -/
def BuildsIfComplete (t : SolidTree α) : Prop :=
  (t.isComplete = true ∧ ∃ s, t.build = .ok s) ∨
    (t.isComplete = false ∧ ∃ c, t.build = .error (.noOperands c))

theorem buildAll_cases (h : ∀ t ∈ ts, t.BuildsIfComplete) :
    (areComplete ts = true ∧ ∃ ss, buildAll ts = .ok ss ∧ ss.length = ts.length) ∨
      (areComplete ts = false ∧ ∃ c, buildAll ts = .error (.noOperands c)) := by
  induction ts with
  | nil => exact .inl ⟨rfl, [], rfl, rfl⟩
  | cons t ts ih =>
      have hts := ih fun u hu => h u (List.mem_cons_of_mem _ hu)
      rw [buildAll_cons, areComplete]
      rcases h t List.mem_cons_self with ⟨ht, s, hs⟩ | ⟨ht, c, hc⟩
      · rw [ht, hs]
        rcases hts with ⟨hall, ss, hss, hlength⟩ | ⟨hall, c, hc⟩
        · rw [hall, hss]
          exact .inl ⟨rfl, s :: ss, rfl, by rw [List.length_cons, hlength, List.length_cons]⟩
        · rw [hall, hc]
          exact .inr ⟨rfl, c, rfl⟩
      · rw [ht, hc]
        exact .inr ⟨rfl, c, rfl⟩

theorem buildsIfComplete_combination {t : SolidTree α} {parts : List (SolidTree α)}
    (combine : List (Solid α) → Except (ConstructionError α) (Solid α)) {c : Combination}
    (hcomplete : t.isComplete = (!parts.isEmpty && areComplete parts))
    (hbuild : t.build = (buildAll parts).bind combine)
    (hnil : combine [] = .error (.noOperands c))
    (hcons : ∀ s ss, ∃ u, combine (s :: ss) = .ok u) (hparts : ∀ u ∈ parts, u.BuildsIfComplete) :
    t.BuildsIfComplete := by
  rw [BuildsIfComplete, hcomplete, hbuild]
  rcases buildAll_cases hparts with ⟨hall, ss, hss, hlength⟩ | ⟨hall, c, hc⟩
  · rw [hall, hss]
    cases parts with
    | nil =>
        rw [List.eq_nil_of_length_eq_zero hlength]
        exact .inr ⟨rfl, c, hnil⟩
    | cons part parts =>
        cases ss with
        | nil => cases hlength
        | cons s ss => exact .inl ⟨rfl, hcons s ss⟩
  · rw [hall, hc, Bool.and_false]
    exact .inr ⟨rfl, c, rfl⟩

theorem buildsIfComplete (t : SolidTree α) : t.BuildsIfComplete := by
  induction t with
  | leaf s => exact .inl ⟨rfl, s, rfl⟩
  | union parts ih =>
      exact buildsIfComplete_combination Solid.union rfl (by rw [build]; rfl) rfl
        (fun s ss => ⟨_, rfl⟩) ih
  | intersection parts ih =>
      exact buildsIfComplete_combination Solid.intersection rfl (by rw [build]; rfl) rfl
        (fun s ss => ⟨_, rfl⟩) ih
  | difference positive negative hp hn =>
      rw [BuildsIfComplete, isComplete, build]
      rcases hp with ⟨hp, s, hs⟩ | ⟨hp, c, hc⟩
      · rw [hp, hs]
        rcases hn with ⟨hn, u, hu⟩ | ⟨hn, c, hc⟩
        · rw [hn, hu]
          exact .inl ⟨rfl, _, rfl⟩
        · rw [hn, hc]
          exact .inr ⟨rfl, c, rfl⟩
      · rw [hp, hc]
        exact .inr ⟨rfl, c, rfl⟩

/-! ## What is built -/

/-- A solid that keeps its bounds and contains the points at which a tree holds. -/
structure Describes (t : SolidTree α) (s : Solid α) : Prop where
  keepsBounds : s.KeepsBounds
  contains_eq (p : Point α) : s.contains p = t.holds p

theorem describes_buildAll (h : ∀ t ∈ ts, ∀ s, t.build = .ok s → t.Describes s) {ss : List (Solid α)}
    (hss : buildAll ts = .ok ss) : List.Forall₂ Describes ts ss := by
  induction ts generalizing ss with
  | nil =>
      cases hss
      exact .nil
  | cons t ts ih =>
      rw [buildAll_cons] at hss
      cases ht : t.build with
      | error e =>
          rw [ht] at hss
          cases hss
      | ok s =>
          cases hts : buildAll ts with
          | error e =>
              rw [ht, hts] at hss
              cases hss
          | ok rest =>
              rw [ht, hts] at hss
              cases hss
              exact .cons (h t List.mem_cons_self s ht)
                (ih (fun u hu => h u (List.mem_cons_of_mem _ hu)) hts)

theorem keepsBounds_of_forall₂ {ss : List (Solid α)} (h : List.Forall₂ Describes ts ss) :
    ∀ s ∈ ss, s.KeepsBounds := by
  induction h with
  | nil => exact fun s hs => absurd hs List.not_mem_nil
  | cons hd _ ih =>
      intro s hs
      rcases List.mem_cons.mp hs with rfl | hs
      · exact hd.keepsBounds
      · exact ih s hs

theorem any_contains_of_forall₂ {ss : List (Solid α)} (h : List.Forall₂ Describes ts ss)
    (p : Point α) : (ss.any fun s => s.contains p) = anyHolds p ts := by
  induction h with
  | nil => rfl
  | cons hd _ ih => rw [List.any_cons, ih, anyHolds, hd.contains_eq]

theorem all_contains_of_forall₂ {ss : List (Solid α)} (h : List.Forall₂ Describes ts ss)
    (p : Point α) : (ss.all fun s => s.contains p) = allHold p ts := by
  induction h with
  | nil => rfl
  | cons hd _ ih => rw [List.all_cons, ih, allHold, hd.contains_eq]

theorem describes_combination {t : SolidTree α} {parts : List (SolidTree α)}
    (combine : List (Solid α) → Except (ConstructionError α) (Solid α))
    (hbuild : t.build = (buildAll parts).bind combine)
    (hcombine : ∀ ss u, List.Forall₂ Describes parts ss → combine ss = .ok u → t.Describes u)
    (hparts : ∀ part ∈ parts, ∀ s, part.build = .ok s → part.Describes s) {u : Solid α}
    (hu : t.build = .ok u) : t.Describes u := by
  rw [hbuild] at hu
  cases hss : buildAll parts with
  | error e =>
      rw [hss] at hu
      cases hu
  | ok ss =>
      rw [hss] at hu
      exact hcombine ss u (describes_buildAll hparts hss) hu

/-- Each combination keeps what its operands have, so a tree has it if its leaves do. -/
theorem describes_build [ComparableScalar α] (t : SolidTree α)
    (hleaves : ∀ s ∈ t.leaves, s.KeepsBounds) {s : Solid α} (hs : t.build = .ok s) :
    t.Describes s := by
  induction t generalizing s with
  | leaf leaf =>
      cases hs
      exact ⟨hleaves leaf (List.mem_singleton_self leaf), fun p => rfl⟩
  | union parts ih =>
      rw [leaves, leavesAll_eq_flatMap] at hleaves
      refine describes_combination Solid.union (by rw [build]; rfl)
        (fun ss u hss hu => ?_)
        (fun part hpart s => ih part hpart fun s hs => hleaves s (List.mem_flatMap_of_mem hpart hs))
        hs
      obtain ⟨hkeeps, hany⟩ := Solid.union_spec (keepsBounds_of_forall₂ hss) hu
      exact ⟨hkeeps, fun p => by rw [hany, any_contains_of_forall₂ hss, holds]⟩
  | intersection parts ih =>
      rw [leaves, leavesAll_eq_flatMap] at hleaves
      refine describes_combination Solid.intersection (by rw [build]; rfl)
        (fun ss u hss hu => ?_)
        (fun part hpart s => ih part hpart fun s hs => hleaves s (List.mem_flatMap_of_mem hpart hs))
        hs
      obtain ⟨hkeeps, hall⟩ := Solid.intersection_spec (keepsBounds_of_forall₂ hss) hu
      exact ⟨hkeeps, fun p => by rw [hall, all_contains_of_forall₂ hss, holds]⟩
  | difference positive negative hp hn =>
      rw [leaves] at hleaves
      rw [build] at hs
      cases hpositive : positive.build with
      | error e =>
          rw [hpositive] at hs
          cases hs
      | ok p =>
          cases hnegative : negative.build with
          | error e =>
              rw [hpositive, hnegative] at hs
              cases hs
          | ok n =>
              rw [hpositive, hnegative] at hs
              cases hs
              have hdp := hp (fun s hs => hleaves s (List.mem_append_left _ hs)) hpositive
              have hdn := hn (fun s hs => hleaves s (List.mem_append_right _ hs)) hnegative
              refine ⟨hdp.keepsBounds.difference, fun q => ?_⟩
              rw [holds, ← hdp.contains_eq, ← hdn.contains_eq]
              rfl

/-- Over leaves that keep their bounds, a complete tree builds a solid that answers every point as
the Boolean combination of its leaves does and is outside wherever its own bounds end. A tree that
is not complete builds nothing, for want of an operand. -/
theorem contains_build_eq_holds [ComparableScalar α] {t : SolidTree α}
    (hleaves : ∀ s ∈ t.leaves, s.KeepsBounds) :
    (t.isComplete = true → ∃ s, t.build = .ok s ∧ ∀ p, s.contains p = t.holds p ∧
      (s.contains p = true → s.bounds.contains p = true)) ∧
      (t.isComplete = false → ∃ c, t.build = .error (.noOperands c)) := by
  rcases t.buildsIfComplete with ⟨hcomplete, s, hs⟩ | ⟨hcomplete, hc⟩
  · rw [hcomplete]
    have hdescribes := describes_build t hleaves hs
    refine ⟨fun _ => ⟨s, hs, fun p => ⟨hdescribes.contains_eq p, ?_⟩⟩,
      fun h => absurd h.symm Bool.false_ne_true⟩
    exact hdescribes.keepsBounds.contains_bounds
  · rw [hcomplete]
    exact ⟨fun h => absurd h Bool.false_ne_true, fun _ => hc⟩

/-- The cube between two values of every coordinate. -/
def cube (bounds : Float × Float) : Cuboid Float :=
  ⟨⟨Vec3.repeated bounds.1, Vec3.repeated bounds.2⟩⟩

/-- The overlap of two cubes that are apart, next to a cube with a hollow. -/
def hollowBesideNothing : SolidTree Float :=
  .union [.intersection [.leaf (cube (0, 1)).solid, .leaf (cube (2, 3)).solid],
    .difference (.leaf (cube (4, 8)).solid) (.leaf (cube (5, 6)).solid)]

theorem contains_build_eq_holds_hollowBesideNothing :
    ∃ s, hollowBesideNothing.build = .ok s ∧
      (∀ p, s.contains p = hollowBesideNothing.holds p) ∧ s.contains ⟨4.5, 7, 4.5⟩ = true ∧
        s.contains ⟨5.5, 5.5, 5.5⟩ = false := by
  have hnumeric : ∀ i ∈ [((0 : Float), (1 : Float)), (2, 3), (4, 8), (5, 6)],
      (i.1 == i.1) = true ∧ (i.2 == i.2) = true := by
    decide +kernel
  have hleaves : ∀ s ∈ hollowBesideNothing.leaves, s.KeepsBounds := by
    intro s hs
    have hmap : hollowBesideNothing.leaves =
        [(0, 1), (2, 3), (4, 8), (5, 6)].map fun i => (cube i).solid := rfl
    rw [hmap, List.mem_map] at hs
    obtain ⟨i, hi, rfl⟩ := hs
    exact (cube i).keepsBounds ⟨fun a => by cases a <;> exact (hnumeric i hi).1,
      fun a => by cases a <;> exact (hnumeric i hi).2⟩
  obtain ⟨s, hs, hspec⟩ := (contains_build_eq_holds hleaves).1 rfl
  refine ⟨s, hs, fun p => (hspec p).1, ?_, ?_⟩
  · rw [(hspec _).1]
    decide +kernel
  · rw [(hspec _).1]
    decide +kernel

end SolidSurface.SolidTree
