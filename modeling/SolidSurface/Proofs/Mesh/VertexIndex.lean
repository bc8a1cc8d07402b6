import SolidSurface.Proofs.Mesh.Log

/-! # The vertex index

Whatever order the vertices are met in, the index of a mesh lists under each key the handles of the
live triangles with a corner of that key, in increasing order.
-/

namespace SolidSurface.Mesh

open Std (HashMap)

variable {α κ : Type} [BEq κ] [Hashable κ] [LawfulBEq κ] [Keyed α κ]

theorem getD_enter (index : HandleIndex κ) (k l : PointKey κ) (id : TriangleHandle) :
    (enter index l id).getD k [] =
      if l == k then (index.getD k []).insert id else index.getD k [] := by
  rw [enter, HashMap.getD_alter]
  split
  · rename_i h
    rw [eq_of_beq h, HashMap.getD_eq_getD_getElem?]
    rfl
  · rfl

/-- A triangle is entered once, however many of its corners share a key. -/
theorem getD_foldl_enter (index : HandleIndex κ) (k : PointKey κ) (id : TriangleHandle)
    (vs : List (Point α)) :
    (vs.foldl (fun index v => enter index (PointKey.ofPoint v) id) index).getD k [] =
      if vs.any fun v => PointKey.ofPoint v == k then (index.getD k []).insert id
      else index.getD k [] := by
  induction vs generalizing index with
  | nil => rfl
  | cons v vs ih =>
      have hmem : id ∈ (index.getD k []).insert id := List.mem_insert_self
      rw [List.foldl_cons, ih, getD_enter, List.any_cons]
      cases PointKey.ofPoint v == k with
      | false => rw [Bool.false_or, if_neg Bool.false_ne_true]
      | true => rw [Bool.true_or, if_pos rfl, List.insert_of_mem hmem, ite_self]

/-- Handles that are new and different are gathered from the last to the first. -/
theorem getD_foldl_entries (k : PointKey κ) (es : List (TriangleHandle × Triangle α))
    (index : HandleIndex κ) (hes : (es.map Prod.fst).Nodup)
    (hnew : ∀ e ∈ es, e.1 ∉ index.getD k []) :
    (es.foldl (fun index (id, t) =>
      t.corners.foldl (fun index v => enter index (PointKey.ofPoint v) id) index) index).getD k [] =
      ((es.filter fun e => e.2.touches k).map Prod.fst).reverse ++ index.getD k [] := by
  induction es generalizing index with
  | nil => rfl
  | cons e es ih =>
      obtain ⟨id, t⟩ := e
      rw [List.map_cons, List.nodup_cons] at hes
      have hid : id ∉ index.getD k [] := hnew (id, t) List.mem_cons_self
      have hstep := getD_foldl_enter index k id t.corners
      rw [List.foldl_cons, ih _ hes.2, hstep, List.filter_cons, Triangle.touches]
      · split
        · rw [List.insert_of_not_mem hid]
          simp
        · rfl
      · intro e he
        have hne : e.1 ≠ id := fun h => hes.1 (List.mem_map.mpr ⟨e, he, h⟩)
        have hold := hnew e (List.mem_cons_of_mem _ he)
        rw [hstep]
        split
        · rw [List.mem_insert_iff]
          rintro (h | h)
          · exact hne h
          · exact hold h
        · exact hold

theorem getD_indexEntries {l : TriangleLog α} (hl : l.length ≤ handleCount) (k : PointKey κ) :
    (indexEntries l.entries : HandleIndex κ).getD k [] = l.handlesAt k := by
  have hnodup : (l.entries.map Prod.fst).Nodup := (TriangleLog.pairwise_entries hl).map _
    fun _ _ h heq => UInt32.ne_of_lt h (congrArg TriangleHandle.slot heq)
  have hgathered := getD_foldl_entries k l.entries ∅ hnodup (by simp)
  rw [HashMap.getD_empty, List.append_nil] at hgathered
  rw [indexEntries, HashMap.getD_eq_getD_getElem?, HashMap.getElem?_map, TriangleLog.handlesAt,
    ← List.reverse_reverse (List.map _ _), ← hgathered, HashMap.getD_eq_getD_getElem?]
  exact Option.getD_map List.reverse [] _

theorem getD_buildIndex (m : Mesh α κ) (k : PointKey κ) :
    m.buildIndex.getD k [] = m.log.handlesAt k :=
  getD_indexEntries m.length_log_le k

end SolidSurface.Mesh
