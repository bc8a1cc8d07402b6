import SolidSurface.Proofs.Mesh.History
import SolidSurface.Proofs.Mesh.SearchCount
import SolidSurface.Proofs.Mesh.SideCounts

/-! # Fans and singular vertices

The triangles around a vertex are joined where they have another corner in common. The fans around
the vertex are the connected components of this graph, and the singular vertices are those with
more than one.
-/

namespace SolidSurface.Mesh

open Std (HashMap)

variable {α κ : Type} [BEq κ] [Hashable κ] [Keyed α κ]

/-! ## The triangles around a vertex -/

/-- The handle is that of a live triangle with a corner of the given key. -/
def Touches (m : Mesh α κ) (id : TriangleHandle) (k : PointKey κ) : Prop :=
  ∃ t, m.get? id = some t ∧ t.touches k = true

/-- Around a vertex two triangles are joined when they have a corner key in common beside that of
the vertex. -/
def fanGraph (m : Mesh α κ) (k : PointKey κ) : SimpleGraph {id // m.Touches id k} where
  Adj x y := x ≠ y ∧ ∃ l ≠ k, m.Touches x l ∧ m.Touches y l
  symm := ⟨fun _ _ ⟨hne, l, hl, hx, hy⟩ => ⟨hne.symm, l, hl, hy, hx⟩⟩
  loopless := ⟨fun _ h => h.1 rfl⟩

variable [LawfulBEq κ]

section Rims

omit [Hashable κ]

variable {k l : PointKey κ} {t u : Triangle α}

theorem mem_rim : l ∈ rim k t ↔ l ≠ k ∧ t.touches l = true := by
  simp only [rim, List.mem_filter, List.mem_map, bne_iff_ne, Triangle.touches, List.any_eq_true,
    beq_iff_eq]
  exact and_comm

theorem rimsMeet_rim_iff : rimsMeet (rim k t) (rim k u) = true ↔
    ∃ l ≠ k, t.touches l = true ∧ u.touches l = true := by
  simp only [rimsMeet, List.any_eq_true, List.contains_iff_mem, mem_rim]
  constructor
  · rintro ⟨l, ⟨hl, ht⟩, -, hu⟩
    exact ⟨l, hl, ht, hu⟩
  · rintro ⟨l, hl, ht, hu⟩
    exact ⟨l, ⟨hl, ht⟩, hl, hu⟩

end Rims

/-- From any listing of the triangles around a vertex the searches count its fans. -/
theorem fanCount_eq_card {m : Mesh α κ} {k : PointKey κ} {ids : List TriangleHandle}
    (hnodup : ids.Nodup) (hids : ∀ id, id ∈ ids ↔ m.Touches id k) :
    fanCount k (ids.filterMap m.get?) = Nat.card (m.fanGraph k).ConnectedComponent := by
  have hlive (x : {id // m.Touches id k}) : ∃ t, m.get? x = some t := x.2.imp fun _ h => h.1
  choose tri htri using hlive
  have htouches (x : {id // m.Touches id k}) (l : PointKey κ) :
      m.Touches x l ↔ (tri x).touches l = true := by
    simp [Touches, htri]
  -- The search runs over triangles, the components are made of handles.
  let around := ids.attachWith (m.Touches · k) fun id => (hids id).mp
  have htriangles : ids.filterMap m.get? = around.map tri := by
    rw [← List.filterMap_eq_map, ← ids.attachWith_map_subtype_val fun id => (hids id).mp,
      List.filterMap_map]
    exact List.filterMap_congr fun x _ => htri x
  rw [fanCount, htriangles, List.map_map, searchCount_map]
  refine searchCount_eq_card (fun x y => ?_) ?_ fun x => ?_
  · rw [Function.comp_apply, Function.comp_apply, rimsMeet_rim_iff]
    simp only [fanGraph, htouches]
  · have hval : around.map Subtype.val = ids := ids.attachWith_map_subtype_val _
    exact .of_map Subtype.val (hval ▸ hnodup)
  · exact (ids.mem_attachWith _ x).mpr ((hids x).mpr x.2)

omit [LawfulBEq κ] in
theorem mem_handlesAt_log {m : Mesh α κ} {k : PointKey κ} {id : TriangleHandle} :
    id ∈ m.log.handlesAt k ↔ m.Touches id k := by
  simp only [TriangleLog.mem_handlesAt m.length_log_le, Touches, get?_eq_log]

theorem fanCount_handlesAt (m : Mesh α κ) (k : PointKey κ) :
    fanCount k ((m.log.handlesAt k).filterMap m.get?) =
      Nat.card (m.fanGraph k).ConnectedComponent := by
  refine fanCount_eq_card ?_ fun id => mem_handlesAt_log
  exact (TriangleLog.pairwise_handlesAt m.length_log_le k).imp
    fun h heq => UInt32.ne_of_lt h (congrArg TriangleHandle.slot heq)

/-- Where there are fans the vertex is a corner. -/
theorem exists_ofPoint_eq {m : Mesh α κ} {k : PointKey κ}
    (h : 0 < Nat.card (m.fanGraph k).ConnectedComponent) :
    ∃ p : Point α, PointKey.ofPoint p = k := by
  obtain ⟨c⟩ := (Nat.card_pos_iff.mp h).1
  obtain ⟨⟨_, t, -, htouch⟩, -⟩ := c.exists_rep
  obtain ⟨p, -, hp⟩ := List.any_eq_true.mp htouch
  exact ⟨p, eq_of_beq hp⟩

/-! ## Singular vertices -/

section Sorting

variable {β : Type} [Ord κ] [Std.TransOrd κ] [Std.LawfulEqOrd κ]

omit [Keyed α κ]

/-- The keys of the chosen entries of a map, each once and in increasing order. -/
theorem sorted_keys (index : HashMap (PointKey κ) β) (chosen : PointKey κ × β → Bool) :
    let ks := ((index.toList.filter chosen).map Prod.fst).mergeSort PointKey.le
    ks.Pairwise (fun k l => compare k l = .lt) ∧
      ∀ k, k ∈ ks ↔ ∃ b, index[k]? = some b ∧ chosen (k, b) = true := by
  intro ks
  have hperm : ks.Perm ((index.toList.filter chosen).map Prod.fst) := List.mergeSort_perm _ _
  have hle : ks.Pairwise fun k l => k.le l = true :=
    List.pairwise_mergeSort PointKey.le_trans PointKey.le_total _
  have hne : ks.Pairwise fun k l => k ≠ l := by
    refine hperm.nodup_iff.mpr (List.Nodup.sublist (List.filter_sublist.map Prod.fst) ?_)
    rw [List.Nodup, List.pairwise_map]
    exact index.distinct_keys_toList.imp fun h => by simpa using h
  refine ⟨(hle.and hne).imp fun h => PointKey.compare_eq_lt h.1 h.2, fun k => ?_⟩
  rw [hperm.mem_iff, List.mem_map]
  constructor
  · rintro ⟨⟨k, b⟩, hmem, rfl⟩
    rw [List.mem_filter, HashMap.mem_toList_iff_getElem?_eq_some] at hmem
    exact ⟨b, hmem⟩
  · rintro ⟨b, hb, hchosen⟩
    refine ⟨(k, b), ?_, rfl⟩
    rw [List.mem_filter, HashMap.mem_toList_iff_getElem?_eq_some]
    exact ⟨hb, hchosen⟩

end Sorting

/-- Whatever was done to a mesh, the searches around a vertex count the connected components of the
triangles there, and the singular vertices are those with more than one, each once and in the order
of the keys. The points that are returned have these keys as long as a key is the key of its
point. -/
theorem singularPoints_exact [Ord κ] [Std.TransOrd κ] [Std.LawfulEqOrd κ]
    (rs : List (MeshRequest α)) :
    let m : Mesh α κ := stateAfter respond rs empty
    (∀ k, fanCount k ((m.withIndex.1.getD k []).filterMap m.get?) =
      Nat.card (m.fanGraph k).ConnectedComponent) ∧
    ∃ ks : List (PointKey κ), m.singularPoints.1 = ks.map PointKey.point ∧
      ks.Pairwise (fun k l => compare k l = .lt) ∧
      (∀ k, k ∈ ks ↔ 1 < Nat.card (m.fanGraph k).ConnectedComponent) ∧
      ((∀ x : α, Keyed.key (Keyed.value (Keyed.key x) : α) = Keyed.key x) →
        m.singularPoints.1.map PointKey.ofPoint = ks) := by
  intro m
  obtain ⟨hindex, -, hslots⟩ := withIndex_eq (represents_stateAfter (κ := κ) rs)
  have hcount (k : PointKey κ) : fanCount k ((m.withIndex.1.getD k []).filterMap m.get?) =
      Nat.card (m.fanGraph k).ConnectedComponent := by
    rw [hindex, getD_buildIndex]
    exact m.fanCount_handlesAt k
  have hget : m.withIndex.2.get? = m.get? := by
    funext id
    rw [get?, get?, hslots]
  obtain ⟨hlt, hmem⟩ := sorted_keys m.withIndex.1 fun e =>
    decide (1 < fanCount e.1 (e.2.filterMap m.withIndex.2.get?))
  have hmany (k : PointKey κ) : (∃ ids, m.withIndex.1[k]? = some ids ∧
      decide (1 < fanCount k (ids.filterMap m.withIndex.2.get?)) = true) ↔
        1 < Nat.card (m.fanGraph k).ConnectedComponent := by
    rw [← hcount, hget, HashMap.getD_eq_getD_getElem?]
    cases m.withIndex.1[k]? with
    | none => simp [fanCount, searchCount]
    | some ids => simp
  refine ⟨hcount, _, rfl, hlt, fun k => (hmem k).trans (hmany k), fun hvalue => ?_⟩
  refine (List.map_map ..).trans ((List.map_congr_left fun k hk => ?_).trans (List.map_id _))
  have hfans := (hmany k).mp ((hmem k).mp hk)
  obtain ⟨p, rfl⟩ := exists_ofPoint_eq (Nat.zero_lt_of_lt hfans)
  simp only [Function.comp_apply, PointKey.point, PointKey.ofPoint, hvalue, id_eq]

/-- Two triangles with one vertex in common, a third one, which lies on a side of the first, and a
fourth one, which is taken out again. -/
def hingeHistory : List (MeshRequest Fraction) :=
  [.add ⟨⟨0, 0, 0⟩, ⟨1, 0, 0⟩, ⟨0, 1, 0⟩⟩, .add ⟨⟨0, 0, 0⟩, ⟨-1, 0, 0⟩, ⟨0, -1, 0⟩⟩,
    .singularPoints, .extend [⟨⟨0, 0, 0⟩, ⟨0, 0, 0⟩, ⟨1, 0, 0⟩⟩, ⟨⟨1, 0, 0⟩, ⟨0, 1, 0⟩, ⟨-1, 0, 0⟩⟩],
    .find ⟨1, 0, 0⟩, .remove ⟨3⟩]

theorem singularPoints_exact_hingeHistory :
    let m : Mesh Fraction Fraction := stateAfter respond hingeHistory empty
    Nat.card (m.fanGraph ⟨0, 0, 0⟩).ConnectedComponent = 2 ∧
      Nat.card (m.fanGraph ⟨1, 0, 0⟩).ConnectedComponent = 1 ∧
      ⟨0, 0, 0⟩ ∈ m.singularPoints.1 ∧ ⟨1, 0, 0⟩ ∉ m.singularPoints.1 := by
  intro m
  have htwo : Nat.card (m.fanGraph ⟨0, 0, 0⟩).ConnectedComponent = 2 := by
    rw [← fanCount_handlesAt]
    decide +kernel
  have hone : Nat.card (m.fanGraph ⟨1, 0, 0⟩).ConnectedComponent = 1 := by
    rw [← fanCount_handlesAt]
    decide +kernel
  obtain ⟨-, ks, hpoints, -, hmem, hkeys⟩ := singularPoints_exact (κ := Fraction) hingeHistory
  refine ⟨htwo, hone, ?_, fun h => ?_⟩
  · rw [hpoints]
    exact List.mem_map.mpr ⟨⟨0, 0, 0⟩, (hmem _).mpr (by rw [htwo]; decide), rfl⟩
  · have hk := List.mem_map_of_mem (f := PointKey.ofPoint) h
    rw [hkeys fun _ => rfl] at hk
    have hfans : 1 < Nat.card (m.fanGraph ⟨1, 0, 0⟩).ConnectedComponent := (hmem _).mp hk
    rw [hone] at hfans
    exact absurd hfans (by decide)

end SolidSurface.Mesh
