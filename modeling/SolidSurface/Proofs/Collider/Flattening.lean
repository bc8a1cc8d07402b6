import SolidSurface.Proofs.Binary64.Coinciding
import SolidSurface.Proofs.Collider.RayHits

/-! # Flattening of joins

A join takes over the parts of a join that coincides with its box. What has been taken over already
lies in a box that coincides, so no such join is left, and since boxes that coincide are missed by
the same rays and the same balls, no query sees a difference.
-/

namespace SolidSurface

namespace Collider

variable {α : Type} [Scalar α]

/-! ## The earliest of several hits -/

/-- The one of two hits with the lesser position, the first if they share it. -/
def earlier (g h : RayHit α) : RayHit α :=
  if Scalar.totalLE g.scale h.scale then g else h

theorem earliest?_cons (h : RayHit α) (hs : List (RayHit α)) :
    earliest? (h :: hs) = some (hs.foldl earlier h) :=
  rfl

section Order

variable (htotal : ∀ a b : α, Scalar.totalLE a b = true ∨ Scalar.totalLE b a = true)
  (htrans : ∀ a b c : α, Scalar.totalLE a b = true → Scalar.totalLE b c = true →
    Scalar.totalLE a c = true)

include htotal htrans

theorem earlier_assoc (f g h : RayHit α) :
    earlier (earlier f g) h = earlier f (earlier g h) := by
  by_cases hfg : Scalar.totalLE f.scale g.scale = true
  · by_cases hgh : Scalar.totalLE g.scale h.scale = true
    · have hfh := htrans _ _ _ hfg hgh
      simp [earlier, hfg, hgh, hfh]
    · simp [earlier, hfg, hgh]
  · have hgf := (htotal f.scale g.scale).resolve_left hfg
    by_cases hgh : Scalar.totalLE g.scale h.scale = true
    · simp [earlier, hfg, hgh]
    · have hfh : ¬Scalar.totalLE f.scale h.scale = true := fun hfh => hgh (htrans _ _ _ hgf hfh)
      simp [earlier, hfg, hgh, hfh]

theorem earliest?_append (gs hs : List (RayHit α)) :
    earliest? (gs ++ hs) = Option.merge earlier (earliest? gs) (earliest? hs) := by
  cases gs with
  | nil => cases hs <;> rfl
  | cons g gs =>
      cases hs with
      | nil => rw [List.append_nil]; rfl
      | cons h hs =>
          have : Std.Associative (earlier (α := α)) := ⟨earlier_assoc htotal htrans⟩
          rw [List.cons_append, earliest?_cons, List.foldl_append, List.foldl_cons,
            List.foldl_assoc, earliest?_cons, earliest?_cons]
          rfl

/-- Parts may be replaced by lists of parts that have the same first hit together. -/
theorem earliest?_firstHits_flatMap {r : Ray α} {parts : List (Collider α)}
    {f : Collider α → List (Collider α)}
    (h : ∀ c ∈ parts, earliest? (firstHits r (f c)) = c.firstHit? r) :
    earliest? (firstHits r (parts.flatMap f)) = earliest? (firstHits r parts) := by
  induction parts with
  | nil => rfl
  | cons c parts ih =>
      have hfirst : earliest? (c.firstHit? r).toList = c.firstHit? r := by
        cases c.firstHit? r <;> rfl
      calc earliest? (firstHits r (f c ++ parts.flatMap f))
          = earliest? (firstHits r (f c) ++ firstHits r (parts.flatMap f)) := by
            simp only [firstHits_eq_filterMap, List.filterMap_append]
        _ = Option.merge earlier (c.firstHit? r) (earliest? (firstHits r parts)) := by
            rw [earliest?_append htotal htrans, h c List.mem_cons_self,
              ih fun d hd => h d (List.mem_cons_of_mem _ hd)]
        _ = earliest? ((c.firstHit? r).toList ++ firstHits r parts) := by
            rw [earliest?_append htotal htrans, hfirst]
        _ = earliest? (firstHits r (c :: parts)) := by
            rw [firstHits]
            cases c.firstHit? r <;> rfl

end Order

/-! ## What a part gives up -/

section Pieces

variable {box : Box α} {c : Collider α}

/-- A part stays whole, or it is a join with the same box and gives up all its parts. -/
theorem pieces_eq_or (box : Box α) (c : Collider α) :
    (pieces box c = [c] ∧ ∀ inner parts, c = joined inner parts → inner.coincides box = false) ∨
      ∃ inner parts, c = joined inner parts ∧ inner.coincides box = true ∧
        pieces box c = parts := by
  cases c with
  | triangle t => exact .inl ⟨rfl, fun _ _ h => by cases h⟩
  | tree m => exact .inl ⟨rfl, fun _ _ h => by cases h⟩
  | joined inner parts =>
      by_cases hsame : inner.coincides box = true
      · exact .inr ⟨inner, parts, rfl, hsame, if_pos hsame⟩
      · refine .inl ⟨if_neg hsame, fun b ps h => ?_⟩
        cases h
        exact Bool.eq_false_iff.mpr hsame

variable {r : Ray α} {center : Point α} {radius : α}

theorem rayHitsAll_pieces
    (hmeets : ∀ inner : Box α, inner.coincides box = true → (r.intervalIn? inner).isNone = false)
    (c : Collider α) : rayHitsAll r (pieces box c) = c.rayHits r := by
  rcases pieces_eq_or box c with ⟨hwhole, -⟩ | ⟨inner, parts, rfl, hsame, hparts⟩
  · rw [hwhole, rayHitsAll, rayHitsAll, List.append_nil]
  · rw [hparts, rayHits, hmeets inner hsame, if_neg Bool.false_ne_true]

theorem earliest?_firstHits_pieces
    (hmeets : ∀ inner : Box α, inner.coincides box = true → (r.intervalIn? inner).isNone = false)
    (c : Collider α) : earliest? (firstHits r (pieces box c)) = c.firstHit? r := by
  rcases pieces_eq_or box c with ⟨hwhole, -⟩ | ⟨inner, parts, rfl, hsame, hparts⟩
  · rw [hwhole, firstHits, firstHits]
    cases c.firstHit? r <;> rfl
  · rw [hparts, firstHit?, hmeets inner hsame, if_neg Bool.false_ne_true]

theorem anyTouchesBall_pieces
    (hmeets : ∀ inner : Box α, inner.coincides box = true →
      inner.distanceSquared center ≤ radius * radius)
    (c : Collider α) :
    anyTouchesBall center radius (pieces box c) = c.touchesBall center radius := by
  rcases pieces_eq_or box c with ⟨hwhole, -⟩ | ⟨inner, parts, rfl, hsame, hparts⟩
  · rw [hwhole, anyTouchesBall, anyTouchesBall, Bool.or_false]
  · rw [hparts, touchesBall, decide_eq_true (hmeets inner hsame), Bool.true_and]

theorem rayHitsAll_flatMap {parts : List (Collider α)} {f : Collider α → List (Collider α)}
    (h : ∀ c ∈ parts, rayHitsAll r (f c) = c.rayHits r) :
    rayHitsAll r (parts.flatMap f) = rayHitsAll r parts := by
  simp only [rayHitsAll_eq_flatMap] at h ⊢
  rw [List.flatMap_assoc]
  exact List.flatMap_congr h

theorem anyTouchesBall_flatMap {parts : List (Collider α)} {f : Collider α → List (Collider α)}
    (h : ∀ c ∈ parts, anyTouchesBall center radius (f c) = c.touchesBall center radius) :
    anyTouchesBall center radius (parts.flatMap f) = anyTouchesBall center radius parts := by
  induction parts with
  | nil => rfl
  | cons c parts ih =>
      have hrest := ih fun d hd => h d (List.mem_cons_of_mem _ hd)
      have hfirst := h c List.mem_cons_self
      simp only [anyTouchesBall_eq_any, List.flatMap_cons, List.any_append, List.any_cons] at *
      rw [hfirst, hrest]

end Pieces

/-! ## No join is left -/

section Flat

variable {box : Box α} {parts : List (Collider α)}

/-- No part is a join with a box that coincides. -/
def Flat : Collider α → Prop
  | joined box parts => ∀ inner ps, joined inner ps ∈ parts → inner.coincides box = false
  | _ => True

/-- The parts that are taken over come from a box that coincides, so they need no second look. -/
theorem flat_join (hbeq : ∀ b c d : Box α, b.coincides d = true → c.coincides d = true →
      b.coincides c = true) (h : ∀ c ∈ parts, Flat c) : Flat (join parts) := by
  rw [join_eq]
  intro inner ps hmem
  obtain ⟨c, hc, hpiece⟩ := List.mem_flatMap.mp hmem
  rcases pieces_eq_or (.unionAll (parts.map bounds)) c with
    ⟨hwhole, hother⟩ | ⟨b, cs, rfl, hsame, hparts⟩
  · rw [hwhole, List.mem_singleton] at hpiece
    exact hother inner ps hpiece.symm
  · rw [hparts] at hpiece
    have hflat := h _ hc inner ps hpiece
    by_contra hcoincides
    rw [hbeq _ _ _ (Bool.not_eq_false _ ▸ hcoincides) hsame] at hflat
    cases hflat

theorem flat_joinTree (hbeq : ∀ b c d : Box α, b.coincides d = true → c.coincides d = true →
      b.coincides c = true) {h : Hierarchy (Collider α)} (hleaves : ∀ c ∈ h.toList, Flat c) :
    Flat (joinTree h) := by
  induction h with
  | leaf c => exact hleaves c (List.mem_singleton_self c)
  | branch l r ihl ihr =>
      refine flat_join hbeq fun c hc => ?_
      rcases List.mem_pair.mp hc with rfl | rfl
      · exact ihl fun d hd => hleaves d (List.mem_append_left _ hd)
      · exact ihr fun d hd => hleaves d (List.mem_append_right _ hd)

/-- The colliders that joining makes, again and again, of single ones. -/
inductive Assembled : Collider α → Prop
  | triangle (t : Triangle α) : Assembled (triangle t)
  | tree (m : TreeCollider α) : Assembled (tree m)
  | join {parts : List (Collider α)} (hparts : ∀ c ∈ parts, Assembled c) : Assembled (join parts)
  | hierarchy {h : Hierarchy (Collider α)} (hleaves : ∀ c ∈ h.toList, Assembled c) :
      Assembled (ofHierarchy h)

theorem Assembled.flat (hbeq : ∀ b c d : Box α, b.coincides d = true → c.coincides d = true →
      b.coincides c = true) {c : Collider α} (h : Assembled c) : Flat c := by
  induction h with
  | triangle t => trivial
  | tree m => trivial
  | join _ ih => exact flat_join hbeq ih
  | @hierarchy h _ ih =>
      cases h with
      | leaf c => exact flat_join hbeq ih
      | branch l r => exact flat_joinTree hbeq ih

end Flat

/-! ## In floating point -/

open Binary64

theorem totalLE_total (x y : Float) :
    Scalar.totalLE x y = true ∨ Scalar.totalLE y x = true := by
  change Binary64.totalLE x y = true ∨ Binary64.totalLE y x = true
  simp only [Binary64.totalLE, decide_eq_true_eq]
  exact UInt64.le_total _ _

theorem totalLE_trans (x y z : Float) (h : Scalar.totalLE x y = true)
    (h' : Scalar.totalLE y z = true) : Scalar.totalLE x z = true := by
  change Binary64.totalLE x y = true at h
  change Binary64.totalLE y z = true at h'
  change Binary64.totalLE x z = true
  simp only [Binary64.totalLE, decide_eq_true_eq] at *
  exact UInt64.le_trans h h'

theorem beq_of_beq {x y z : Float} (hx : (x == z) = true) (hy : (y == z) = true) :
    (x == y) = true := by
  obtain ⟨m, hxm, hzm⟩ := beq_iff.mp hx
  obtain ⟨n, hyn, hzn⟩ := beq_iff.mp hy
  cases hzm.symm.trans hzn
  exact beq_iff.mpr ⟨m, hxm, hyn⟩

theorem coincides_of_coincides (b c d : Box Float) (hb : b.coincides d = true)
    (hc : c.coincides d = true) : b.coincides c = true := by
  simp only [Box.coincides, Vec3.coincides, Bool.and_eq_true] at *
  exact ⟨⟨⟨beq_of_beq hb.1.1.1 hc.1.1.1, beq_of_beq hb.1.1.2 hc.1.1.2⟩, beq_of_beq hb.1.2 hc.1.2⟩,
    ⟨beq_of_beq hb.2.1.1 hc.2.1.1, beq_of_beq hb.2.1.2 hc.2.1.2⟩, beq_of_beq hb.2.2 hc.2.2⟩

section Queries

variable (parts : List (Collider Float))

/-- The join that leaves its parts whole. -/
def joinWhole (parts : List (Collider α)) : Collider α :=
  joined (.unionAll (parts.map bounds)) parts

theorem rayHits_join (r : Ray Float) : (join parts).rayHits r = (joinWhole parts).rayHits r := by
  rw [join_eq, joinWhole, rayHits, rayHits]
  split
  · rfl
  · rename_i hmeets
    refine rayHitsAll_flatMap fun c _ => rayHitsAll_pieces (fun inner hsame => ?_) c
    rw [r.isNone_intervalIn?_eq hsame]
    exact Bool.eq_false_iff.mpr hmeets

theorem firstHit?_join (r : Ray Float) :
    (join parts).firstHit? r = (joinWhole parts).firstHit? r := by
  rw [join_eq, joinWhole, firstHit?, firstHit?]
  split
  · rfl
  · rename_i hmeets
    refine earliest?_firstHits_flatMap totalLE_total totalLE_trans fun c _ =>
      earliest?_firstHits_pieces (fun inner hsame => ?_) c
    rw [r.isNone_intervalIn?_eq hsame]
    exact Bool.eq_false_iff.mpr hmeets

theorem touchesBall_join (center : Point Float) (radius : Float) :
    (join parts).touchesBall center radius = (joinWhole parts).touchesBall center radius := by
  rw [join_eq, joinWhole, touchesBall, touchesBall]
  by_cases hreached : (Box.unionAll (parts.map bounds)).distanceSquared center ≤ radius * radius
  · rw [anyTouchesBall_flatMap fun c _ => anyTouchesBall_pieces (fun inner hsame => ?_) c]
    exact ((Box.distanceSquared_alike hsame center).le_iff (.refl _)).mpr hreached
  · rw [decide_eq_false hreached, Bool.false_and, Bool.false_and]

end Queries

/-- However joins are nested, no part of one is a join with a box that coincides; and a join that
takes over the parts of others answers every query as the one that leaves its parts whole. -/
theorem join_flattens :
    (∀ (box : Box Float) (parts : List (Collider Float)), Assembled (joined box parts) →
      ∀ inner ps, joined inner ps ∈ parts → inner.coincides box = false) ∧
    ∀ parts : List (Collider Float),
      let whole := joined (.unionAll (parts.map bounds)) parts
      (∀ r : Ray Float, (join parts).rayHits r = whole.rayHits r ∧
        (join parts).countHits r = whole.countHits r ∧
        (join parts).firstHit? r = whole.firstHit? r) ∧
      ∀ (center : Point Float) (radius : Float),
        (join parts).touchesBall center radius = whole.touchesBall center radius := by
  refine ⟨fun box parts h => h.flat coincides_of_coincides, fun parts => ⟨fun r => ?_, ?_⟩⟩
  · refine ⟨rayHits_join parts r, ?_, firstHit?_join parts r⟩
    rw [countHits_eq, rayHits_join parts r, countHits_eq, joinWhole]
  · exact touchesBall_join parts

/-- A join with the same box gives up its two parts, and one with another box is left whole. -/
theorem join_flattens_nested :
    let lower : Collider Float := triangle ⟨⟨0, 0, 0⟩, ⟨1, 0, 0⟩, ⟨0, 1, 0⟩⟩
    let upper : Collider Float := triangle ⟨⟨1, 1, 1⟩, ⟨1, 0, 1⟩, ⟨0, 1, 1⟩⟩
    let parts := [join [lower, upper], join [lower], upper]
    let whole := joined (.unionAll (parts.map bounds)) parts
    ∃ box ps, join parts = joined box ps ∧ ps.length = 4 ∧ Assembled (joined box ps) ∧
      (∀ inner qs, joined inner qs ∈ ps → inner.coincides box = false) ∧
      ∀ r : Ray Float, (join parts).firstHit? r = whole.firstHit? r := by
  intro lower upper parts whole
  have hlower : Assembled lower := .triangle _
  have hupper : Assembled upper := .triangle _
  have hpair : Assembled (join [lower, upper]) :=
    .join (List.forall_mem_cons.mpr ⟨hlower, List.forall_mem_singleton.mpr hupper⟩)
  have hsingle : Assembled (join [lower]) := .join (List.forall_mem_singleton.mpr hlower)
  have hassembled : Assembled (join parts) :=
    .join (List.forall_mem_cons.mpr ⟨hpair, List.forall_mem_cons.mpr
      ⟨hsingle, List.forall_mem_singleton.mpr hupper⟩⟩)
  rw [join_eq] at hassembled
  exact ⟨_, _, join_eq parts, by decide +kernel, hassembled, join_flattens.1 _ _ hassembled,
    fun r => ((join_flattens.2 parts).1 r).2.2⟩

end Collider

end SolidSurface
