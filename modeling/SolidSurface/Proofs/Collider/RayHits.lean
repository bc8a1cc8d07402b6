import SolidSurface.Proofs.Scalar.Fraction
import SolidSurface.Proofs.Collider.TriangleTree
import SolidSurface.Proofs.Hierarchy.Objects

/-! # Ray hits of a collider

However a collider is put together, a ray strikes it where it strikes the triangles that went into
it: trees, joins and the flattening of joins neither lose nor invent a hit.
-/

namespace SolidSurface

namespace Collider

variable {α : Type}

/-! ## The triangles of a collider -/

mutual

/-- The triangles of a collider from its first part to its last. -/
def triangles : Collider α → List (Triangle α)
  | triangle t => [t]
  | tree m => m.root.triangles
  | joined _ parts => trianglesAll parts

def trianglesAll : List (Collider α) → List (Triangle α)
  | [] => []
  | c :: cs => c.triangles ++ trianglesAll cs

end

theorem trianglesAll_eq_flatMap (cs : List (Collider α)) :
    trianglesAll cs = cs.flatMap triangles := by
  induction cs with
  | nil => rfl
  | cons c cs ih => rw [trianglesAll, List.flatMap_cons, ih]

section Lists

variable [Scalar α] (r : Ray α)

theorem rayHitsAll_eq_flatMap (cs : List (Collider α)) :
    rayHitsAll r cs = cs.flatMap (rayHits r) := by
  induction cs with
  | nil => rfl
  | cons c cs ih => rw [rayHitsAll, List.flatMap_cons, ih]

theorem firstHits_eq_filterMap (cs : List (Collider α)) :
    firstHits r cs = cs.filterMap (firstHit? r) := by
  induction cs with
  | nil => rfl
  | cons c cs ih =>
      rw [firstHits, List.filterMap_cons]
      cases firstHit? r c with
      | none => exact ih
      | some hit => rw [ih]

theorem anyTouchesBall_eq_any (center : Point α) (radius : α) (cs : List (Collider α)) :
    anyTouchesBall center radius cs = cs.any (touchesBall center radius) := by
  induction cs with
  | nil => rfl
  | cons c cs ih => rw [anyTouchesBall, List.any_cons, ih]

mutual

/-- The count is the number of hits. -/
theorem countHits_eq : ∀ c : Collider α, c.countHits r = (c.rayHits r).length
  | triangle t => by
      rw [countHits, rayHits]
      cases r.strike? t <;> rfl
  | tree m => by rw [countHits, rayHits, TriangleTree.countHits_eq]
  | joined box parts => by
      rw [countHits, rayHits]
      split
      · rfl
      · exact countHitsAll_eq parts

theorem countHitsAll_eq : ∀ cs : List (Collider α), countHitsAll r cs = (rayHitsAll r cs).length
  | [] => rfl
  | c :: cs => by
      rw [countHitsAll, rayHitsAll, List.length_append, countHits_eq c, countHitsAll_eq cs]

end

end Lists

section Parts

variable [Scalar α]

/-- What a part of a join with the given box contributes to it. -/
def pieces (box : Box α) : Collider α → List (Collider α)
  | joined inner parts => if inner.coincides box then parts else [joined inner parts]
  | c => [c]

theorem join_eq (parts : List (Collider α)) :
    join parts = joined (.unionAll (parts.map bounds))
      (parts.flatMap (pieces (.unionAll (parts.map bounds)))) := by
  rw [join]
  congr 2
  funext part
  cases part <;> rfl

end Parts

/-! ## Boxes that cover -/

variable [FieldScalar α]

/-- Every box covers the boxes of the parts below it. -/
inductive Enclosed : Collider α → Prop
  | triangle (t : Triangle α) : Enclosed (triangle t)
  | tree {m : TreeCollider α} (hroot : m.root.Enclosed) : Enclosed (tree m)
  | joined {box : Box α} {parts : List (Collider α)}
      (hbox : ∀ c ∈ parts, box.Covers c.bounds) (hparts : ∀ c ∈ parts, Enclosed c) :
      Enclosed (joined box parts)

variable {c : Collider α} {r : Ray α}

theorem Enclosed.covers_bounds (h : c.Enclosed) {t : Triangle α} (ht : t ∈ c.triangles) :
    c.bounds.Covers t.bounds := by
  induction h with
  | triangle t' =>
      rw [triangles, List.mem_singleton] at ht
      rw [ht]
      exact Box.Covers.refl _
  | tree hroot =>
      rw [triangles] at ht
      exact hroot.covers_bounds ht
  | joined hbox _ ih =>
      rw [triangles, trianglesAll_eq_flatMap] at ht
      obtain ⟨d, hd, ht⟩ := List.mem_flatMap.mp ht
      exact (hbox d hd).trans (ih d hd ht)

theorem rayHits_eq (r : Ray α) (h : c.Enclosed) :
    c.rayHits r = c.triangles.filterMap r.strike? := by
  induction h with
  | triangle t =>
      rw [rayHits, triangles, List.filterMap_cons, List.filterMap_nil]
      cases r.strike? t <;> rfl
  | tree hroot => rw [rayHits, triangles, TriangleTree.rayHits_eq r hroot]
  | joined hbox hparts ih =>
      rw [rayHits]
      split
      · rename_i hmiss
        have hcovers := fun t => (Enclosed.joined hbox hparts).covers_bounds (t := t)
        exact (Ray.filterMap_strike?_eq_nil hcovers hmiss).symm
      · rw [rayHitsAll_eq_flatMap, List.flatMap_congr ih, triangles, trianglesAll_eq_flatMap,
          List.filterMap_flatMap]

theorem firstHit?_isFirst (r : Ray α) (h : c.Enclosed) :
    IsFirst (c.triangles.filterMap r.strike?) ⊤ (c.firstHit? r) := by
  induction h with
  | triangle t =>
      rw [firstHit?, triangles, List.filterMap_cons, List.filterMap_nil]
      cases r.strike? t with
      | none => exact fun g hg => absurd hg List.not_mem_nil
      | some hit =>
          refine ⟨List.mem_singleton_self hit, WithTop.coe_lt_top _, fun g hg => ?_⟩
          rw [List.mem_singleton.mp hg]
  | tree hroot =>
      rw [firstHit?, triangles]
      exact TriangleTree.firstHit?_isFirst r hroot .infinity
  | joined hbox hparts ih =>
      rw [firstHit?]
      split
      · rename_i hmiss
        have hcovers := fun t => (Enclosed.joined hbox hparts).covers_bounds (t := t)
        rw [Ray.filterMap_strike?_eq_nil hcovers hmiss]
        exact fun g hg => absurd hg List.not_mem_nil
      · rw [firstHits_eq_filterMap, triangles, trianglesAll_eq_flatMap, List.filterMap_flatMap]
        exact earliest?_filterMap_isFirst ih

/-! ## Joining -/

theorem pieces_spec {box : Box α} (h : c.Enclosed) (hbox : box.Covers c.bounds) :
    (∀ d ∈ pieces box c, box.Covers d.bounds ∧ d.Enclosed) ∧
      (pieces box c).flatMap triangles = c.triangles := by
  have hself : (∀ d ∈ [c], box.Covers d.bounds ∧ d.Enclosed) ∧
      [c].flatMap triangles = c.triangles := by
    refine ⟨fun d hd => ?_, by simp⟩
    rw [List.mem_singleton.mp hd]
    exact ⟨hbox, h⟩
  cases h with
  | triangle t => exact hself
  | tree hroot => exact hself
  | @joined inner parts hinner hparts =>
      by_cases hsame : inner.coincides box = true
      · rw [pieces, if_pos hsame]
        refine ⟨fun d hd => ⟨(Box.covers_of_coincides hsame).trans (hinner d hd), hparts d hd⟩, ?_⟩
        rw [triangles, trianglesAll_eq_flatMap]
      · rw [pieces, if_neg hsame]
        exact hself

/-- A join covers its parts, also where it takes over the parts of another join. -/
theorem join_spec {parts : List (Collider α)} (h : ∀ c ∈ parts, c.Enclosed) :
    (join parts).Enclosed ∧ (join parts).triangles = parts.flatMap triangles := by
  have hpieces := fun c hc => pieces_spec (h c hc)
    (Box.unionAll_covers (List.mem_map_of_mem (f := bounds) hc))
  rw [join_eq]
  constructor
  · apply Enclosed.joined
    · intro d hd
      obtain ⟨c, hc, hd⟩ := List.mem_flatMap.mp hd
      exact ((hpieces c hc).1 d hd).1
    · intro d hd
      obtain ⟨c, hc, hd⟩ := List.mem_flatMap.mp hd
      exact ((hpieces c hc).1 d hd).2
  · rw [triangles, trianglesAll_eq_flatMap, List.flatMap_assoc]
    exact List.flatMap_congr fun c hc => (hpieces c hc).2

theorem joinTree_spec {h : Hierarchy (Collider α)} (hleaves : ∀ c ∈ h.toList, c.Enclosed) :
    (joinTree h).Enclosed ∧ (joinTree h).triangles = h.toList.flatMap triangles := by
  induction h with
  | leaf c =>
      refine ⟨hleaves c (List.mem_singleton_self c), ?_⟩
      simp [joinTree]
  | branch l r hl hr =>
      obtain ⟨hel, htl⟩ := hl fun c hc => hleaves c (List.mem_append_left _ hc)
      obtain ⟨her, htr⟩ := hr fun c hc => hleaves c (List.mem_append_right _ hc)
      have hboth : ∀ c ∈ [joinTree l, joinTree r], c.Enclosed := by
        rintro c (_ | ⟨_, _ | ⟨_, hc⟩⟩)
        · exact hel
        · exact her
        · cases hc
      obtain ⟨he, ht⟩ := join_spec hboth
      refine ⟨he, ?_⟩
      rw [joinTree, ht]
      simp [htl, htr]

theorem ofHierarchy_spec {h : Hierarchy (Collider α)} (hleaves : ∀ c ∈ h.toList, c.Enclosed) :
    (ofHierarchy h).Enclosed ∧ (ofHierarchy h).triangles = h.toList.flatMap triangles := by
  cases h with
  | leaf c => exact join_spec hleaves
  | branch l r => exact joinTree_spec hleaves

/-! ## Building -/

/-- A collider built from a list of triangles: from one triangle, from a mesh, or by joining
colliders that are built from its parts, side by side or over a hierarchy. -/
inductive BuiltFrom : Collider α → List (Triangle α) → Prop
  | triangle (t : Triangle α) : BuiltFrom (triangle t) [t]
  | mesh {ts : List (Triangle α)} {m : TreeCollider α}
      (hmesh : TreeCollider.ofTriangles ts = .ok m) : BuiltFrom (tree m) ts
  | hierarchy {parts : List (Collider α × List (Triangle α))} {h : Hierarchy (Collider α)}
      (hparts : ∀ p ∈ parts, BuiltFrom p.1 p.2)
      (hbuilt : Hierarchy.ofAreaDensity? bounds (parts.map Prod.fst) = some h ∨
        Hierarchy.ofMedians? bounds (parts.map Prod.fst) = some h) :
      BuiltFrom (ofHierarchy h) (parts.flatMap Prod.snd)
  | join {parts : List (Collider α × List (Triangle α))}
      (hparts : ∀ p ∈ parts, BuiltFrom p.1 p.2) :
      BuiltFrom (join (parts.map Prod.fst)) (parts.flatMap Prod.snd)

theorem ofTriangles_spec {ts : List (Triangle α)} {m : TreeCollider α}
    (hmesh : TreeCollider.ofTriangles ts = .ok m) :
    m.root.Enclosed ∧ m.root.triangles.Perm ts := by
  rw [TreeCollider.ofTriangles] at hmesh
  split at hmesh
  · cases hmesh
  · rename_i h hbuilt
    cases hmesh
    refine ⟨TriangleTree.enclosed_ofHierarchy h, ?_⟩
    rw [TriangleTree.triangles_ofHierarchy]
    exact Hierarchy.toList_ofAreaDensity?_perm hbuilt

omit [FieldScalar α] in
theorem flatMap_triangles_perm {parts : List (Collider α × List (Triangle α))}
    (h : ∀ p ∈ parts, p.1.triangles.Perm p.2) :
    ((parts.map Prod.fst).flatMap triangles).Perm (parts.flatMap Prod.snd) := by
  rw [List.flatMap_map]
  exact List.Perm.flatMap_left parts h

theorem BuiltFrom.spec {ts : List (Triangle α)} (h : BuiltFrom c ts) :
    c.Enclosed ∧ c.triangles.Perm ts := by
  induction h with
  | triangle t => exact ⟨.triangle t, .rfl⟩
  | mesh hmesh =>
      obtain ⟨henclosed, hperm⟩ := ofTriangles_spec hmesh
      exact ⟨.tree henclosed, hperm⟩
  | @hierarchy parts h _ hbuilt ih =>
      have hleaves : h.toList.Perm (parts.map Prod.fst) := by
        rcases hbuilt with hbuilt | hbuilt
        · exact Hierarchy.toList_ofAreaDensity?_perm hbuilt
        · exact Hierarchy.toList_ofMedians?_perm hbuilt
      have henclosed : ∀ c ∈ h.toList, c.Enclosed := by
        intro c hc
        obtain ⟨p, hp, rfl⟩ := List.mem_map.mp (hleaves.mem_iff.mp hc)
        exact (ih p hp).1
      obtain ⟨he, ht⟩ := ofHierarchy_spec henclosed
      refine ⟨he, ?_⟩
      rw [ht]
      exact (hleaves.flatMap_right _).trans (flatMap_triangles_perm fun p hp => (ih p hp).2)
  | @join parts _ ih =>
      have henclosed : ∀ c ∈ parts.map Prod.fst, c.Enclosed := by
        intro c hc
        obtain ⟨p, hp, rfl⟩ := List.mem_map.mp hc
        exact (ih p hp).1
      obtain ⟨he, ht⟩ := join_spec henclosed
      refine ⟨he, ?_⟩
      rw [ht]
      exact flatMap_triangles_perm fun p hp => (ih p hp).2

omit [FieldScalar α] in
/-- Every list of triangles but the empty one makes a mesh. -/
theorem exists_ofTriangles_eq_ok [Scalar α] {ts : List (Triangle α)} (hne : ts ≠ []) :
    ∃ m, TreeCollider.ofTriangles ts = .ok m := by
  have hsome : (Hierarchy.ofAreaDensity? Triangle.bounds ts).isSome = true :=
    Hierarchy.isSome_ofAreaDensity? hne
  obtain ⟨h, hbuilt⟩ := Option.isSome_iff_exists.mp hsome
  exact ⟨_, by rw [TreeCollider.ofTriangles, hbuilt]⟩

/-- A ray strikes a collider exactly where it strikes the triangles that the collider was built
from, as often as counted, and first at the least position. -/
theorem rayHits_builtFrom {ts : List (Triangle α)} (h : BuiltFrom c ts) (r : Ray α) :
    (c.rayHits r).Perm (ts.filterMap r.strike?) ∧
      c.countHits r = (c.rayHits r).length ∧
      (c.firstHit? r = none ↔ ts.filterMap r.strike? = []) ∧
      ∀ hit, c.firstHit? r = some hit → hit ∈ ts.filterMap r.strike? ∧
        ∀ other ∈ ts.filterMap r.strike?, hit.scale ≤ other.scale := by
  obtain ⟨henclosed, hperm⟩ := h.spec
  have hhits := hperm.filterMap r.strike?
  have hfirst := (firstHit?_isFirst r henclosed).perm hhits
  refine ⟨by rwa [rayHits_eq r henclosed], countHits_eq r c, ?_, ?_⟩
  · cases hf : c.firstHit? r with
    | none =>
        rw [hf] at hfirst
        refine ⟨fun _ => List.eq_nil_iff_forall_not_mem.mpr fun g hg => ?_, fun _ => rfl⟩
        exact absurd (hfirst g hg) (not_le.mpr (WithTop.coe_lt_top _))
    | some hit =>
        rw [hf] at hfirst
        refine ⟨fun hnone => (Option.some_ne_none _ hnone).elim, fun hnil => ?_⟩
        rw [hnil] at hfirst
        exact absurd hfirst.1 List.not_mem_nil
  · intro hit hf
    rw [hf] at hfirst
    exact ⟨hfirst.1, hfirst.2.2⟩

/-- Two triangles one above the other, and one without area between them. -/
def stacked : List (Triangle Fraction) :=
  [⟨⟨0, 0, 0⟩, ⟨1, 0, 0⟩, ⟨0, 1, 0⟩⟩, ⟨⟨0, 0, 0⟩, ⟨1, 1, 1⟩, ⟨1, 1, 1⟩⟩,
    ⟨⟨0, 0, 1⟩, ⟨1, 0, 1⟩, ⟨0, 1, 1⟩⟩]

/-- A ray straight down through the stack. -/
def plumb : Ray Fraction :=
  ⟨⟨1 / 4, 1 / 4, 3⟩, ⟨0, 0, -1⟩⟩

theorem rayHits_builtFrom_stacked : ∃ c : Collider Fraction, BuiltFrom c stacked ∧
    c.countHits plumb = 2 ∧ c.firstHit? plumb ≠ none := by
  have hne : stacked.take 2 ≠ [] := List.cons_ne_nil _ _
  obtain ⟨m, hm⟩ := exists_ofTriangles_eq_ok hne
  let parts : List (Collider Fraction × List (Triangle Fraction)) :=
    [(tree m, stacked.take 2), (triangle ⟨⟨0, 0, 1⟩, ⟨1, 0, 1⟩, ⟨0, 1, 1⟩⟩, stacked.drop 2)]
  have hparts : ∀ p ∈ parts, BuiltFrom p.1 p.2 := by
    intro p hp
    rcases List.mem_cons.mp hp with rfl | hp
    · exact .mesh hm
    · rw [List.mem_singleton.mp hp]
      exact .triangle _
  have hbuilt : BuiltFrom (join (parts.map Prod.fst)) stacked := .join hparts
  obtain ⟨hperm, hcount, hnone, -⟩ := rayHits_builtFrom hbuilt plumb
  have hlength : (stacked.filterMap plumb.strike?).length = 2 := by decide +kernel
  refine ⟨_, hbuilt, by rw [hcount, hperm.length_eq, hlength], fun hf => ?_⟩
  rw [hnone.mp hf] at hlength
  cases hlength

end Collider

end SolidSurface
