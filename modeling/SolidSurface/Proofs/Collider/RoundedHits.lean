import SolidSurface.Proofs.Binary64.Boxes
import SolidSurface.Proofs.Binary64.Coplanar
import SolidSurface.Proofs.Collider.RayHits

/-! # First hits in floating point

A tree reports the hits in all the subtrees whose boxes a ray meets, whatever the rounding of the
ends of the ray in the box of a single triangle. The search for the first hit goes by those ends, so
it answers only for the hits that do not come before the ray enters the box of their own triangle.
-/

namespace SolidSurface

open Binary64 TriangleTree

/-! ## Entries -/

namespace Ray

/-- Whether a ray enters a box before the end. -/
def Meets (r : Ray Float) (b : Box Float) : Prop :=
  (entry r b).lt .infinity = true

/-- Whether a hit has a finite position, at which the ray has entered the box of the triangle that
it strikes. -/
def HasEntered (r : Ray Float) (h : RayHit Float) : Prop :=
  h.scale.isFinite = true ∧ (entry r h.triangle.bounds).le (.val h.scale) = true

variable {r : Ray Float} {b c : Box Float} {t : Triangle Float} {h : RayHit Float}

theorem entry_of_some {i : RayInterval Float} (hi : r.intervalIn? b = some i) :
    entry r b = .val i.start := by
  rw [entry, hi]

theorem entry_of_none (hi : r.intervalIn? b = none) : entry r b = .infinity := by
  rw [entry, hi]

theorem isNumber_entry (r : Ray Float) (b : Box Float) : Measure.float.IsNumber (entry r b) := by
  cases hi : r.intervalIn? b with
  | none =>
      rw [entry_of_none hi]
      exact Measure.isNumber_infinity
  | some i =>
      rw [entry_of_some hi]
      exact exists_start_of_intervalIn? hi

theorem meets_iff :
    r.Meets b ↔ Measure.float.value (entry r b) < Measure.float.value .infinity :=
  Measure.float.lt_iff (isNumber_entry r b) Measure.isNumber_infinity

theorem Meets.exists_intervalIn? (hmeets : r.Meets b) :
    ∃ i, r.intervalIn? b = some i ∧ Binary64.units? i.start ≠ some (limit : ℤ) := by
  have hlt := meets_iff.mp hmeets
  cases hi : r.intervalIn? b with
  | none =>
      rw [entry_of_none hi] at hlt
      exact absurd hlt (lt_irrefl _)
  | some i =>
      refine ⟨i, rfl, fun hstart => absurd hlt ?_⟩
      have hentry : (Extended.val i.start).units? = (Extended.infinity : Extended Float).units? :=
        hstart
      rw [entry_of_some hi, Measure.value_eq hentry]
      exact lt_irrefl _

/-- A ray enters a larger box no later. -/
theorem entry_le_entry (hr : r.IsFinite) (hb : b.Proper) (hc : c.Proper) (hbc : b.Within c)
    (hflat : ∀ a, ¬b.IsFlatAt r.origin a) (hmeets : r.Meets b) :
    Measure.float.value (entry r c) ≤ Measure.float.value (entry r b) := by
  obtain ⟨i, hi, hstart⟩ := hmeets.exists_intervalIn?
  obtain ⟨j, hj, m, n, m', n', hspans, hspans', -, hle, -⟩ :=
    exists_intervalIn?_within hr hb hc hbc hflat hi hstart
  have hentry : (Extended.val i.start).units? = some m := hspans.start
  have hentry' : (Extended.val j.start).units? = some m' := hspans'.start
  rw [entry_of_some hi, entry_of_some hj, Measure.value_eq hentry, Measure.value_eq hentry']
  exact hle

theorem isNumber_scale (hstrike : r.strike? t = some h) :
    Measure.float.IsNumber (.val h.scale) := by
  obtain ⟨-, n, -, hn, -⟩ := lt_iff.mp (strike?_eq_some hstrike).1
  exact ⟨n, hn⟩

theorem HasEntered.scale_lt (hstrike : r.strike? t = some h) (hentered : r.HasEntered h) :
    Measure.float.position h < Measure.float.value .infinity := by
  have hlt : (Extended.val h.scale).lt .infinity = true :=
    (Bool.or_eq_true _ _).mpr (.inl hentered.1)
  exact (Measure.float.lt_iff (isNumber_scale hstrike) Measure.isNumber_infinity).mp hlt

theorem HasEntered.entry_le (hstrike : r.strike? t = some h) (hentered : r.HasEntered h) :
    Measure.float.value (entry r t.bounds) ≤ Measure.float.position h := by
  have hle := hentered.2
  rw [(strike?_eq_some hstrike).2.1] at hle
  exact (Measure.float.le_iff (isNumber_entry r t.bounds) (isNumber_scale hstrike)).mp hle

theorem HasEntered.meets (hstrike : r.strike? t = some h) (hentered : r.HasEntered h) :
    r.Meets t.bounds :=
  meets_iff.mpr ((hentered.entry_le hstrike).trans_lt (hentered.scale_lt hstrike))

end Ray

namespace TriangleTree

variable {r : Ray Float} {tree : TriangleTree Float} {t : Triangle Float} {h : RayHit Float}

/-! ## Nested boxes -/

/-- All corners are finite, and every box lies within the boxes above it. -/
inductive Nested : TriangleTree Float → Prop
  | leaf {t : Triangle Float} (ht : ∀ p ∈ t.corners, p.isFinite = true) : Nested (leaf t)
  | branch {box : Box Float} {l r : TriangleTree Float} (hbox : box.Proper)
      (hl : l.bounds.Within box) (hr : r.bounds.Within box) (left : Nested l) (right : Nested r) :
      Nested (branch box l r)

theorem Nested.proper_bounds (hnested : tree.Nested) : tree.bounds.Proper := by
  cases hnested with
  | leaf ht => exact Triangle.proper_bounds ht
  | branch hbox _ _ _ _ => exact hbox

theorem Nested.leaf_within (hnested : tree.Nested) (ht : t ∈ tree.triangles) :
    (TriangleTree.leaf t).Nested ∧ t.bounds.Within tree.bounds := by
  induction hnested with
  | leaf hfinite =>
      rw [List.mem_singleton.mp ht]
      exact ⟨.leaf hfinite, (Triangle.proper_bounds hfinite).within_refl⟩
  | branch _ hl hr _ _ ihl ihr =>
      rcases List.mem_append.mp ht with ht | ht
      · exact ⟨(ihl ht).1, (ihl ht).2.trans hl⟩
      · exact ⟨(ihr ht).1, (ihr ht).2.trans hr⟩

theorem nested_ofHierarchy {H : Hierarchy (Triangle Float)}
    (hfinite : ∀ t ∈ H.toList, ∀ p ∈ t.corners, p.isFinite = true) : (ofHierarchy H).Nested := by
  induction H with
  | leaf t => exact .leaf (hfinite t (List.mem_singleton_self t))
  | branch l r ihl ihr =>
      have hl := ihl fun t ht => hfinite t (List.mem_append_left _ ht)
      have hr := ihr fun t ht => hfinite t (List.mem_append_right _ ht)
      obtain ⟨hbox, hleft, hright⟩ := hl.proper_bounds.union hr.proper_bounds
      exact .branch hbox hleft hright hl hr

/-- A tree does not lie flat in a plane with the origin of a ray that strikes it. -/
theorem Nested.not_flat (hr : r.IsFinite) (hnested : tree.Nested) (ht : t ∈ tree.triangles)
    (hstrike : r.strike? t = some h) (a : Axis) : ¬tree.bounds.IsFlatAt r.origin a := by
  rintro ⟨hlower, hupper⟩
  obtain ⟨hleaf, hwithin⟩ := hnested.leaf_within ht
  have hnone : r.strike? t = none := by
    refine Ray.strike?_eq_none (Vec3.all_eq_true_iff.mp hr.origin a) fun p hp => ?_
    cases hleaf with
    | leaf hfinite =>
      obtain ⟨-, -, hcorners⟩ := Triangle.bounds_spec hfinite a
      obtain ⟨hlow, hhigh⟩ := hcorners p hp
      refine beq_of_le_of_le ?_ ?_
      · exact ((Alike.of_beq hlower).le_iff (.refl _)).mp (le_trans (hwithin.lower a) hlow)
      · exact ((Alike.refl _).le_iff (.of_beq hupper)).mp (le_trans hhigh (hwithin.upper a))
  cases hnone.symm.trans hstrike

/-! ## Hits of a tree -/

theorem exists_strike?_of_mem_rayHits {α : Type} [Scalar α] {r : Ray α} {tree : TriangleTree α}
    {h : RayHit α} (hh : h ∈ tree.rayHits r) : ∃ t ∈ tree.triangles, r.strike? t = some h := by
  induction tree with
  | leaf t => exact ⟨t, List.mem_singleton_self t, Option.mem_toList.mp hh⟩
  | branch box left right ihl ihr =>
      rw [rayHits] at hh
      split at hh
      · cases hh
      · rcases List.mem_append.mp hh with hh | hh
        · obtain ⟨t, ht, hstrike⟩ := ihl hh
          exact ⟨t, List.mem_append_left _ ht, hstrike⟩
        · obtain ⟨t, ht, hstrike⟩ := ihr hh
          exact ⟨t, List.mem_append_right _ ht, hstrike⟩

theorem isNumber_scale_of_mem_rayHits (hh : h ∈ tree.rayHits r) :
    Measure.float.IsNumber (.val h.scale) := by
  obtain ⟨t, -, hstrike⟩ := exists_strike?_of_mem_rayHits hh
  exact Ray.isNumber_scale hstrike

theorem rayHits_branch {box : Box Float} (left right : TriangleTree Float)
    (hmeets : r.Meets box) :
    (branch box left right).rayHits r = left.rayHits r ++ right.rayHits r := by
  obtain ⟨i, hi, -⟩ := hmeets.exists_intervalIn?
  rw [rayHits, hi]
  rfl

/-- The hits on the triangles of a tree whose boxes the ray has entered. -/
def entered (r : Ray Float) (tree : TriangleTree Float) : Set (RayHit Float) :=
  {h | ∃ t ∈ tree.triangles, r.strike? t = some h ∧ r.HasEntered h}

/-- The hits of a tree of which a first one is searched. The box of a triangle is looked at, but not
that of the whole tree. -/
def searched (r : Ray Float) (tree : TriangleTree Float) : Set (RayHit Float) :=
  {h | h ∈ tree.rayHits r ∧ (r.Meets h.triangle.bounds ∨ tree = leaf h.triangle)}

/-- The hits of a subtree of which a first one is searched, if the ray meets its box. -/
def searchedBelow (r : Ray Float) (tree : TriangleTree Float) : Set (RayHit Float) :=
  {h | h ∈ tree.rayHits r ∧ r.Meets h.triangle.bounds ∧ r.Meets tree.bounds}

theorem entered_branch_subset {box : Box Float} {left right : TriangleTree Float} :
    (branch box left right).entered r ⊆ left.entered r ∪ right.entered r := by
  rintro h ⟨t, ht, hhit⟩
  rcases List.mem_append.mp ht with ht | ht
  · exact .inl ⟨t, ht, hhit⟩
  · exact .inr ⟨t, ht, hhit⟩

variable (hr : r.IsFinite) (hnested : tree.Nested)

include hr hnested

/-- A hit in a box that the ray has entered is in every box around it, and the ray has entered that
before. -/
theorem entry_le_of_mem_entered (hh : h ∈ tree.entered r) :
    Measure.float.value (entry r tree.bounds) ≤ Measure.float.position h := by
  obtain ⟨t, ht, hstrike, hentered⟩ := hh
  obtain ⟨hleaf, hwithin⟩ := hnested.leaf_within ht
  have hflat := hleaf.not_flat hr (List.mem_singleton_self t) hstrike
  exact (Ray.entry_le_entry hr hleaf.proper_bounds hnested.proper_bounds hwithin hflat
    (hentered.meets hstrike)).trans (hentered.entry_le hstrike)

theorem meets_of_mem_entered (hh : h ∈ tree.entered r) : r.Meets tree.bounds := by
  have hle := entry_le_of_mem_entered hr hnested hh
  obtain ⟨t, -, hstrike, hentered⟩ := hh
  exact Ray.meets_iff.mpr (hle.trans_lt (hentered.scale_lt hstrike))

theorem mem_rayHits_of_mem_entered (hh : h ∈ tree.entered r) : h ∈ tree.rayHits r := by
  induction hnested with
  | leaf _ =>
      obtain ⟨t, ht, hstrike, -⟩ := hh
      rw [List.mem_singleton.mp ht] at hstrike
      exact Option.mem_toList.mpr hstrike
  | @branch box left right hbox hl hright hleft' hright' ihl ihr =>
      have hmeets := meets_of_mem_entered hr (.branch hbox hl hright hleft' hright') hh
      change r.Meets box at hmeets
      rw [rayHits_branch left right hmeets]
      rcases (Set.mem_union _ _ _).mp (entered_branch_subset hh) with hh | hh
      · exact List.mem_append_left _ (ihl hh)
      · exact List.mem_append_right _ (ihr hh)

/-- A ray that strikes a tree and meets its box meets every larger box. -/
theorem meets_of_within {box : Box Float} (hbox : box.Proper) (hwithin : tree.bounds.Within box)
    (hh : h ∈ tree.rayHits r) (hmeets : r.Meets tree.bounds) : r.Meets box := by
  obtain ⟨t, ht, hstrike⟩ := exists_strike?_of_mem_rayHits hh
  have hle := Ray.entry_le_entry hr hnested.proper_bounds hbox hwithin
    (hnested.not_flat hr ht hstrike) hmeets
  exact Ray.meets_iff.mpr (hle.trans_lt (Ray.meets_iff.mp hmeets))

omit hnested in
/-- What is searched of two subtrees is searched of a tree around them. -/
theorem searchedBelow_subset {box : Box Float} {left right : TriangleTree Float}
    (hnested : (branch box left right).Nested) :
    left.searchedBelow r ∪ right.searchedBelow r ⊆ (branch box left right).searched r := by
  cases hnested with
  | branch hbox hl hright hleft' hright' =>
    rintro h (⟨hh, hmeets, hbelow⟩ | ⟨hh, hmeets, hbelow⟩)
    · refine ⟨?_, .inl hmeets⟩
      rw [rayHits_branch left right (meets_of_within hr hleft' hbox hl hh hbelow)]
      exact List.mem_append_left _ hh
    · refine ⟨?_, .inl hmeets⟩
      rw [rayHits_branch left right (meets_of_within hr hright' hbox hright hh hbelow)]
      exact List.mem_append_right _ hh

omit hr hnested in
theorem searched_subset_searchedBelow (hmeets : r.Meets tree.bounds) :
    tree.searched r ⊆ tree.searchedBelow r := by
  rintro h ⟨hh, hbox | rfl⟩
  · exact ⟨hh, hbox, hmeets⟩
  · exact ⟨hh, hmeets, hmeets⟩

/-! ## The first hit -/

/-- A subtree on the way of the ray, provided that its first hit is found below every limit. -/
theorem subtree_finds (hfirst : ∀ limit, Measure.float.IsNumber limit →
      FindsFirst .float (tree.searched r) (tree.entered r) limit (tree.firstHit? r limit)) :
    Subtree.Finds .float ⟨entry r tree.bounds, firstHit? r tree⟩ (tree.searchedBelow r)
      (tree.entered r) where
  isNumber_entry := Ray.isNumber_entry r tree.bounds
  isNumber_scale h hh := isNumber_scale_of_mem_rayHits hh.1
  entry_le h hh := entry_le_of_mem_entered hr hnested hh
  findsFirst limit hlimit hlt := by
    have hmeets : r.Meets tree.bounds :=
      Ray.meets_iff.mpr (hlt.trans_le (Measure.value_le_infinity hlimit))
    exact FindsFirst.mono (searched_subset_searchedBelow hmeets) subset_rfl (hfirst limit hlimit)

theorem firstHit?_findsFirst (limit : Extended Float) (hlimit : Measure.float.IsNumber limit) :
    FindsFirst .float (tree.searched r) (tree.entered r) limit (tree.firstHit? r limit) := by
  induction hnested generalizing limit with
  | @leaf t ht =>
      have hentered : ∀ h ∈ (leaf t).entered r, r.strike? t = some h := by
        rintro h ⟨t', ht', hstrike, -⟩
        rwa [List.mem_singleton.mp ht'] at hstrike
      rw [firstHit?]
      cases hstrike : r.strike? t with
      | none =>
          intro h hh
          cases hstrike.symm.trans (hentered h hh)
      | some hit =>
          have htriangle := (Ray.strike?_eq_some hstrike).2.1
          have hmem : hit ∈ (leaf t).searched r :=
            ⟨Option.mem_toList.mpr hstrike, .inr (congrArg leaf htriangle.symm)⟩
          refine findsFirst_filter hlimit (Ray.isNumber_scale hstrike) hmem fun h hh => ?_
          exact Option.some.inj ((hentered h hh).symm.trans hstrike)
  | @branch box left right hbox hl hright hleft' hright' ihl ihr =>
      have hfound := searchedBelow_subset hr (.branch hbox hl hright hleft' hright')
      have hfirst := searchByEntry_findsFirst (subtree_finds hr hleft' ihl)
        (subtree_finds hr hright' ihr) hlimit
      exact hfirst.mono hfound entered_branch_subset

/-- A hit at a finite position lies below the limit without end. -/
theorem exists_firstHit?_le (hh : h ∈ tree.entered r) :
    ∃ g, tree.firstHit? r .infinity = some g ∧ g.scale ≤ h.scale := by
  have hscale := isNumber_scale_of_mem_rayHits (mem_rayHits_of_mem_entered hr hnested hh)
  have hfirst := firstHit?_findsFirst hr hnested .infinity Measure.isNumber_infinity
  cases hg : tree.firstHit? r .infinity with
  | none =>
      rw [hg] at hfirst
      obtain ⟨t, -, hstrike, hentered⟩ := id hh
      exact absurd (hfirst h hh) (not_le.mpr (hentered.scale_lt hstrike))
  | some g =>
      rw [hg] at hfirst
      obtain ⟨hmem, -, hleast⟩ := hfirst
      have hle := (Measure.float.le_iff (isNumber_scale_of_mem_rayHits hmem.1) hscale).mpr
        (hleast h hh)
      exact ⟨g, rfl, of_decide_eq_true hle⟩

theorem mem_searched_of_firstHit? (hfirst : tree.firstHit? r .infinity = some h) :
    h ∈ tree.searched r := by
  have hfinds := firstHit?_findsFirst hr hnested .infinity Measure.isNumber_infinity
  rw [hfirst] at hfinds
  exact hfinds.1

end TriangleTree

namespace TreeCollider

theorem nested_ofTriangles {ts : List (Triangle Float)}
    (hfinite : ∀ t ∈ ts, ∀ p ∈ t.corners, p.isFinite = true) {m : TreeCollider Float}
    (hm : ofTriangles ts = .ok m) : m.root.Nested ∧ m.root.triangles.Perm ts := by
  rw [ofTriangles] at hm
  split at hm
  · cases hm
  · rename_i h hbuilt
    cases hm
    have hperm := Hierarchy.toList_ofAreaDensity?_perm hbuilt
    refine ⟨nested_ofHierarchy fun t ht => hfinite t (hperm.mem_iff.mp ht), ?_⟩
    rwa [triangles_ofHierarchy]

/-- The first hit that a mesh gives is one that it reports and, if the mesh has more than one
triangle, lies on a triangle whose box the ray meets. It comes no later than any hit in a box that
the ray has entered. The two queries agree as soon as one of the earliest hits is such a hit. -/
theorem rayQueries_agree {ts : List (Triangle Float)} (hne : ts ≠ [])
    (hfinite : ∀ t ∈ ts, ∀ p ∈ t.corners, p.isFinite = true) {r : Ray Float}
    (hr : r.IsFinite) :
    ∃ m, ofTriangles ts = .ok m ∧
      let hits := (Collider.tree m).rayHits r
      let first := (Collider.tree m).firstHit? r
      (∀ t ∈ ts, ∀ h, r.strike? t = some h → r.HasEntered h →
        h ∈ hits ∧ ∃ g, first = some g ∧ g.scale ≤ h.scale) ∧
      (∀ g, first = some g → g ∈ hits ∧ (1 < ts.length → r.Meets g.triangle.bounds)) ∧
      ((∀ h ∈ hits, ∃ e ∈ hits, e.scale ≤ h.scale ∧ r.HasEntered e) →
        (first.isSome = true ↔ hits ≠ []) ∧
        ∀ g, first = some g → ∀ h ∈ hits, g.scale ≤ h.scale) := by
  obtain ⟨m, hm⟩ := Collider.exists_ofTriangles_eq_ok hne
  obtain ⟨hnested, hperm⟩ := nested_ofTriangles hfinite hm
  have hsearched : ∀ g, (Collider.tree m).firstHit? r = some g → g ∈ m.root.searched r :=
    fun g hg => mem_searched_of_firstHit? hr hnested hg
  have hfirst : ∀ t ∈ ts, ∀ h, r.strike? t = some h → r.HasEntered h →
      h ∈ (Collider.tree m).rayHits r ∧
        ∃ g, (Collider.tree m).firstHit? r = some g ∧ g.scale ≤ h.scale := by
    intro t ht h hstrike hentered
    have hh : h ∈ m.root.entered r := ⟨t, hperm.mem_iff.mpr ht, hstrike, hentered⟩
    exact ⟨mem_rayHits_of_mem_entered hr hnested hh, exists_firstHit?_le hr hnested hh⟩
  refine ⟨m, hm, hfirst, fun g hg => ⟨(hsearched g hg).1, fun hmany => ?_⟩, fun hearliest => ?_⟩
  · refine (hsearched g hg).2.resolve_right fun hleaf => absurd hmany ?_
    rw [← hperm.length_eq, hleaf]
    exact lt_irrefl 1
  · have hleast : ∀ h ∈ (Collider.tree m).rayHits r,
        ∃ g, (Collider.tree m).firstHit? r = some g ∧ g.scale ≤ h.scale := by
      intro h hh
      obtain ⟨e, he, hle, hentered⟩ := hearliest h hh
      obtain ⟨t, ht, hstrike⟩ := exists_strike?_of_mem_rayHits he
      obtain ⟨-, g, hg, hge⟩ := hfirst t (hperm.mem_iff.mp ht) e hstrike hentered
      exact ⟨g, hg, le_trans hge hle⟩
    refine ⟨⟨fun hsome => ?_, fun hhits => ?_⟩, fun g hg h hh => ?_⟩
    · obtain ⟨g, hg⟩ := Option.isSome_iff_exists.mp hsome
      exact List.ne_nil_of_mem (hsearched g hg).1
    · obtain ⟨h, hh⟩ := List.exists_mem_of_ne_nil _ hhits
      obtain ⟨g, hg, -⟩ := hleast h hh
      exact Option.isSome_iff_exists.mpr ⟨g, hg⟩
    · obtain ⟨g', hg', hle⟩ := hleast h hh
      cases hg.symm.trans hg'
      exact hle

/-- Two triangles one behind the other. -/
def pair : List (Triangle Float) :=
  [⟨⟨0, 0, 1⟩, ⟨1, 0, 1⟩, ⟨0, 1, 1⟩⟩, ⟨⟨0, 0, 2⟩, ⟨1, 0, 2⟩, ⟨0, 1, 2⟩⟩]

/-- A ray through both. -/
def pierce : Ray Float :=
  ⟨⟨0.25, 0.25, 0⟩, ⟨0, 0, 1⟩⟩

theorem rayQueries_agree_pair : ∃ m, ofTriangles pair = .ok m ∧
    ∃ g, (Collider.tree m).firstHit? pierce = some g ∧
      ∀ h ∈ (Collider.tree m).rayHits pierce, g.scale ≤ h.scale := by
  have hfinite : ∀ t ∈ pair, ∀ p ∈ t.corners, p.isFinite = true := by
    decide +kernel
  have hr : pierce.IsFinite := ⟨by decide +kernel, by decide +kernel⟩
  have hall : ∀ t ∈ pair, ∃ h, pierce.strike? t = some h ∧ pierce.HasEntered h := by
    have hchecks : ∀ t ∈ pair, (pierce.strike? t).any (fun h => h.scale.isFinite &&
        (entry pierce h.triangle.bounds).le (.val h.scale)) = true := by
      decide +kernel
    intro t ht
    have hcheck := hchecks t ht
    simp only [Option.any_eq_true, Bool.and_eq_true] at hcheck
    exact hcheck
  obtain ⟨m, hm, hentered, -, hagree⟩ := rayQueries_agree (List.cons_ne_nil _ _) hfinite hr
  obtain ⟨-, hperm⟩ := nested_ofTriangles hfinite hm
  obtain ⟨hsome, hleast⟩ := hagree fun h hh => by
    obtain ⟨t, ht, hstrike⟩ := exists_strike?_of_mem_rayHits hh
    obtain ⟨h', hstrike', hentered⟩ := hall t (hperm.mem_iff.mp ht)
    cases hstrike.symm.trans hstrike'
    exact ⟨h, hh, le_self hentered.1, hentered⟩
  obtain ⟨h, hstrike, hh⟩ := hall _ List.mem_cons_self
  obtain ⟨g, hg, -⟩ := (hentered _ List.mem_cons_self h hstrike hh).2
  exact ⟨m, hm, g, hg, hleast g hg⟩

end TreeCollider

/-- A ray at the corner of a triangle that it strikes without meeting its box. -/
example : (TreeCollider.ofTriangles
    [⟨⟨46, 0, 1⟩, ⟨49, 0, 1⟩, ⟨46, 1, 1⟩⟩, ⟨⟨52, 0, 1⟩, ⟨53, 0, 1⟩, ⟨52, 1, 1⟩⟩]).toOption.any
      (fun m : TreeCollider Float =>
        ((Collider.tree m).rayHits ⟨⟨0, 0, 0⟩, ⟨49, 0, 1⟩⟩).length == 1 &&
          ((Collider.tree m).firstHit? ⟨⟨0, 0, 0⟩, ⟨49, 0, 1⟩⟩).isNone) = true := by
  decide +kernel

end SolidSurface
