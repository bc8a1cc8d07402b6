import SolidSurface.Mesh.Indexed
import SolidSurface.Proofs.Mesh.Winding

/-! # The vertices of a mesh

Every corner of a live triangle has its key among the vertices, and every vertex is such a corner.
When corners are moved so that those with the same key, and only those, end with the same key, the
numbers that they get stay the same.
-/

namespace SolidSurface

open Std (HashMap HashSet)

variable {α κ : Type}

/-- The corners of a list of triangles, one triangle after the other. -/
def Triangle.allCorners (ts : List (Triangle α)) : List (Point α) :=
  ts.flatMap corners

theorem Triangle.allCorners_map {β : Type} (f : Point α → Point β) (ts : List (Triangle α)) :
    allCorners (ts.map (map f)) = (allCorners ts).map f := by
  rw [allCorners, allCorners, List.flatMap_map, List.map_flatMap]
  rfl

theorem PointKey.ofPoint_injective [Keyed α κ]
    (hkey : Function.Injective (Keyed.key : α → κ)) :
    Function.Injective (ofPoint : Point α → PointKey κ) := by
  intro p q h
  rw [ofPoint, ofPoint, mk.injEq] at h
  refine Vec3.ext_get fun a => ?_
  cases a
  · exact hkey h.1
  · exact hkey h.2.1
  · exact hkey h.2.2

namespace Mesh

variable [BEq κ] [Hashable κ]

/-! ## Moving corners -/

theorem mem_triangles_iff {m : Mesh α κ} {t : Triangle α} : t ∈ m.triangles ↔ some t ∈ m.slots := by
  simp [triangles]

/-- Only what happens to the corners matters. -/
theorem mapPoints_congr {m : Mesh α κ} {f g : Point α → Point α}
    (h : ∀ v ∈ Triangle.allCorners m.triangles, f v = g v) : m.mapPoints f = m.mapPoints g := by
  have hslot : ∀ slot ∈ m.slots, slot.map (Triangle.map f) = slot.map (Triangle.map g) := by
    rintro (_ | t) ht
    · rfl
    · have hcorner : ∀ v ∈ t.corners, f v = g v := fun v hv =>
        h v (List.mem_flatMap.mpr ⟨t, mem_triangles_iff.mpr ht, hv⟩)
      simp only [Triangle.corners, List.forall_mem_cons] at hcorner
      simp only [Option.map_some, Triangle.map, hcorner]
  simp only [mapPoints, mk.injEq, and_self, and_true]
  exact Array.map_congr_left hslot

theorem mapPoints_mapPoints (m : Mesh α κ) (f g : Point α → Point α) :
    (m.mapPoints f).mapPoints g = m.mapPoints fun p => g (f p) := by
  have hslot : ∀ slot : Option (Triangle α), (slot.map (Triangle.map f)).map (Triangle.map g) =
      slot.map (Triangle.map fun p => g (f p)) := by
    rintro (_ | t) <;> rfl
  simp only [mapPoints, Array.map_map, Function.comp_def, hslot]

/-- Triangles keep their handles. -/
theorem entries_mapPoints (m : Mesh α κ) (f : Point α → Point α) :
    (m.mapPoints f).entries = m.entries.map (Prod.map id (Triangle.map f)) := by
  simp only [entries, mapPoints, Array.toList_map, List.zipIdx_map, List.filterMap_map,
    List.map_filterMap]
  congr 1
  funext e
  obtain ⟨slot, i⟩ := e
  cases slot <;> rfl

variable [Keyed α κ]

/-! ## Collecting vertices -/

/-- Meets one more point: the keys seen so far and, last one first, the points that were new. -/
def meetPoint (met : HashSet (PointKey κ) × List (Point α)) (p : Point α) :
    HashSet (PointKey κ) × List (Point α) :=
  if met.1.contains (PointKey.ofPoint p) then met
  else (met.1.insert (PointKey.ofPoint p), p :: met.2)

theorem vertices_eq (m : Mesh α κ) :
    m.vertices = ((Triangle.allCorners m.triangles).foldl meetPoint (∅, [])).2.reverse := rfl

/-! ## Numbering vertices -/

theorem Numbering.face_eq (n : Numbering α κ) (t : Triangle α) : n.face t =
    (((n.number t.a).1, ((n.number t.a).2.number t.b).1,
        (((n.number t.a).2.number t.b).2.number t.c).1),
      (((n.number t.a).2.number t.b).2.number t.c).2) := rfl

/-- Numbering triangle by triangle. -/
def faceStep (state : Numbering α κ × Array (UInt32 × UInt32 × UInt32)) (t : Triangle α) :
    Numbering α κ × Array (UInt32 × UInt32 × UInt32) :=
  ((state.1.face t).2, state.2.push (state.1.face t).1)

theorem faces_indexed (m : Mesh α κ) : m.indexed.faces =
    (m.triangles.foldl faceStep ((⟨∅, #[]⟩ : Numbering α κ), #[])).2 := rfl

variable [LawfulBEq κ]

/-! ## Vertices and corners -/

/-- The keys seen are those of the points collected, which have different keys. -/
structure Collected (met : HashSet (PointKey κ) × List (Point α)) : Prop where
  mem_iff : ∀ key, key ∈ met.1 ↔ ∃ v ∈ met.2, PointKey.ofPoint v = key
  nodup : (met.2.map PointKey.ofPoint).Nodup

theorem Collected.meetPoint {met : HashSet (PointKey κ) × List (Point α)} (h : Collected met)
    (p : Point α) : Collected (meetPoint met p) := by
  by_cases hp : met.1.contains (PointKey.ofPoint p) = true
  · rwa [Mesh.meetPoint, if_pos hp]
  · rw [Mesh.meetPoint, if_neg hp]
    constructor
    · intro key
      rw [HashSet.mem_insert, beq_iff_eq, h.mem_iff, List.exists_mem_cons_iff]
    · refine List.nodup_cons.mpr ⟨fun hmem => hp ?_, h.nodup⟩
      rw [← HashSet.mem_iff_contains, h.mem_iff]
      exact List.mem_map.mp hmem

/-- Meeting a point adds its key and, unless the key was seen, the point. -/
theorem mem_meetPoint (met : HashSet (PointKey κ) × List (Point α)) (p : Point α) :
    (∀ v ∈ (meetPoint met p).2, v ∈ met.2 ∨ v = p) ∧
      ∀ key, key ∈ met.1 ∨ key = PointKey.ofPoint p → key ∈ (meetPoint met p).1 := by
  by_cases hp : met.1.contains (PointKey.ofPoint p) = true
  · rw [meetPoint, if_pos hp]
    refine ⟨fun v hv => .inl hv, fun key hkey => hkey.elim id ?_⟩
    rintro rfl
    exact HashSet.mem_iff_contains.mpr hp
  · rw [meetPoint, if_neg hp]
    refine ⟨fun v hv => (List.mem_cons.mp hv).symm, fun key hkey => HashSet.mem_insert.mpr ?_⟩
    exact hkey.symm.imp_left fun heq => beq_iff_eq.mpr heq.symm

/-- Only points that were met are collected, each key once, and no key is missed. -/
theorem foldl_meetPoint (ps : List (Point α)) {met : HashSet (PointKey κ) × List (Point α)}
    (hmet : Collected met) : Collected (ps.foldl meetPoint met) ∧
      (∀ v ∈ (ps.foldl meetPoint met).2, v ∈ met.2 ∨ v ∈ ps) ∧
      ∀ key, key ∈ met.1 ∨ (∃ p ∈ ps, PointKey.ofPoint p = key) →
        key ∈ (ps.foldl meetPoint met).1 := by
  induction ps generalizing met with
  | nil => exact ⟨hmet, fun v hv => .inl hv, fun key hkey => hkey.resolve_right (by simp)⟩
  | cons p ps ih =>
      obtain ⟨hcollected, hfrom, hseen⟩ := ih (hmet.meetPoint p)
      obtain ⟨hfrom₁, hseen₁⟩ := mem_meetPoint met p
      refine ⟨hcollected, fun v hv => ?_, fun key hkey => hseen key ?_⟩
      · rcases hfrom v hv with hv | hv
        · exact (hfrom₁ v hv).imp_right fun heq => List.mem_cons.mpr (.inl heq)
        · exact .inr (List.mem_cons_of_mem p hv)
      · rw [List.exists_mem_cons_iff] at hkey
        rcases hkey with hkey | hkey | hkey
        · exact .inl (hseen₁ key (.inl hkey))
        · exact .inl (hseen₁ key (.inr hkey.symm))
        · exact .inr hkey

/-- The vertices are corners, each key once, and every corner shares its key with one of them. -/
structure ListsVertices (ps vs : List (Point α)) : Prop where
  mem : ∀ v ∈ vs, v ∈ ps
  nodup : (vs.map PointKey.ofPoint : List (PointKey κ)).Nodup
  exists_mem : ∀ p ∈ ps, ∃ v ∈ vs, (PointKey.ofPoint v : PointKey κ) = PointKey.ofPoint p

theorem listsVertices_vertices (m : Mesh α κ) :
    ListsVertices (κ := κ) (Triangle.allCorners m.triangles) m.vertices := by
  have hempty : Collected ((∅, []) : HashSet (PointKey κ) × List (Point α)) :=
    ⟨fun key => by simp, List.nodup_nil⟩
  obtain ⟨hcollected, hfrom, hseen⟩ := foldl_meetPoint (Triangle.allCorners m.triangles) hempty
  rw [vertices_eq]
  refine ⟨fun v hv => ?_, ?_, fun p hp => ?_⟩
  · exact (hfrom v (List.mem_reverse.mp hv)).resolve_left List.not_mem_nil
  · rw [((List.reverse_perm _).map _).nodup_iff]
    exact hcollected.nodup
  · obtain ⟨v, hv, heq⟩ := (hcollected.mem_iff _).mp (hseen _ (.inr ⟨p, hp, rfl⟩))
    exact ⟨v, List.mem_reverse.mpr hv, heq⟩

/-- With keys that tell all points apart the vertices are the corners. -/
theorem mem_vertices_iff (hkey : Function.Injective (Keyed.key : α → κ)) {m : Mesh α κ}
    {v : Point α} : v ∈ m.vertices ↔ v ∈ Triangle.allCorners m.triangles := by
  have hvertices := listsVertices_vertices m
  refine ⟨hvertices.mem v, fun hv => ?_⟩
  obtain ⟨w, hw, heq⟩ := hvertices.exists_mem v hv
  rwa [← PointKey.ofPoint_injective hkey heq]

/-! ## Numbers of moved corners -/

section Numbering

variable {f : Point α → Point α} {ps : List (Point α)} {n n' : Numbering α κ}

/-- `n'` has numbered what `f` makes of the points that `n` has numbered. -/
structure SameNumbers (f : Point α → Point α) (ps : List (Point α)) (n n' : Numbering α κ) :
    Prop where
  size_eq : n'.vertices.size = n.vertices.size
  numbers_eq : ∀ p ∈ ps, n'.numbers[PointKey.ofPoint (f p)]? = n.numbers[PointKey.ofPoint p]?

variable (hf : ∀ p ∈ ps, ∀ q ∈ ps,
  PointKey.ofPoint (f p) = PointKey.ofPoint (f q) ↔ PointKey.ofPoint p = PointKey.ofPoint q)

include hf

theorem SameNumbers.number (h : SameNumbers f ps n n') {p : Point α} (hp : p ∈ ps) :
    (n'.number (f p)).1 = (n.number p).1 ∧ SameNumbers f ps (n.number p).2 (n'.number (f p)).2 := by
  rw [Numbering.number, Numbering.number, h.numbers_eq p hp]
  cases n.numbers[PointKey.ofPoint p]? with
  | some i => exact ⟨rfl, h⟩
  | none =>
      refine ⟨congrArg UInt32.ofNat h.size_eq, ?_, fun q hq => ?_⟩
      · rw [Array.size_push, Array.size_push, h.size_eq]
      · have hsame : (PointKey.ofPoint (f p) == PointKey.ofPoint (f q)) =
            (PointKey.ofPoint p == PointKey.ofPoint q) := by
          rw [Bool.eq_iff_iff, beq_iff_eq, beq_iff_eq]
          exact hf p hp q hq
        rw [HashMap.getElem?_insert, HashMap.getElem?_insert, h.size_eq, h.numbers_eq q hq, hsame]

theorem SameNumbers.face (h : SameNumbers f ps n n') {t : Triangle α}
    (ht : ∀ v ∈ t.corners, v ∈ ps) : (n'.face (t.map f)).1 = (n.face t).1 ∧
      SameNumbers f ps (n.face t).2 (n'.face (t.map f)).2 := by
  simp only [Triangle.corners, List.forall_mem_cons] at ht
  obtain ⟨ha, hb, hc, -⟩ := ht
  obtain ⟨hi, h₁⟩ := h.number hf ha
  obtain ⟨hj, h₂⟩ := h₁.number hf hb
  obtain ⟨hk, h₃⟩ := h₂.number hf hc
  rw [Numbering.face_eq, Numbering.face_eq]
  exact ⟨congrArg₂ Prod.mk hi (congrArg₂ Prod.mk hj hk), h₃⟩

theorem SameNumbers.foldl (h : SameNumbers f ps n n') {ts : List (Triangle α)}
    (hts : ∀ v ∈ Triangle.allCorners ts, v ∈ ps) (faces : Array (UInt32 × UInt32 × UInt32)) :
    ((ts.map (Triangle.map f)).foldl faceStep (n', faces)).2 =
      (ts.foldl faceStep (n, faces)).2 := by
  induction ts generalizing n n' faces with
  | nil => rfl
  | cons t ts ih =>
      obtain ⟨hface, hnext⟩ := h.face hf fun v hv =>
        hts v (List.mem_flatMap.mpr ⟨t, List.mem_cons_self, hv⟩)
      rw [List.map_cons, List.foldl_cons, List.foldl_cons]
      simp only [faceStep, hface]
      exact ih hnext (fun v hv => hts v (List.mem_append_right _ hv)) _

end Numbering

/-- Moving corners keeps the faces of the indexed mesh, as long as the same corners coincide. -/
theorem faces_indexed_mapPoints {m : Mesh α κ} {f : Point α → Point α}
    (hf : ∀ p ∈ Triangle.allCorners m.triangles, ∀ q ∈ Triangle.allCorners m.triangles,
      PointKey.ofPoint (f p) = PointKey.ofPoint (f q) ↔ PointKey.ofPoint p = PointKey.ofPoint q) :
    (m.mapPoints f).indexed.faces = m.indexed.faces := by
  have hstart : SameNumbers f (Triangle.allCorners m.triangles)
      (⟨∅, #[]⟩ : Numbering α κ) ⟨∅, #[]⟩ := ⟨rfl, fun p _ => by simp⟩
  rw [faces_indexed, faces_indexed, triangles_mapPoints]
  exact hstart.foldl hf (fun v hv => hv) #[]

end Mesh

end SolidSurface
