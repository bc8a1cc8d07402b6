import SolidSurface.Extraction.CubeCase
import SolidSurface.Proofs.DirectedPairs

/-! # The segments of a face

The walk around a face depends only on which of its four corners are inside. `runs` gives its
segments for four corners and the four edges between them, whatever those are; faces of the cube and
faces of the lattice are both instances. Walking the other way round turns every segment around.
-/

namespace SolidSurface.CubeCase

variable {β γ : Type}

/-! ## Masks -/

theorem testBit_foldl_or (P : Nat → Bool) (f : Nat → Nat) (l : List Nat) (m j : Nat) :
    (l.foldl (fun m c => if P c then m ||| 1 <<< f c else m) m).testBit j =
      (m.testBit j || l.any fun c => P c && f c == j) := by
  induction l generalizing m with
  | nil => simp
  | cons c l ih =>
      rw [List.foldl_cons, ih, List.any_cons, ← Bool.or_assoc]
      congr 1
      cases h : P c with
      | false => simp
      | true => simp [Nat.testBit_or, Nat.one_shiftLeft, Nat.testBit_two_pow, Bool.beq_eq_decide_eq]

theorem testBit_maskOf (inside : Nat → Bool) {c : Nat} (hc : c < 8) :
    (maskOf inside).testBit c = inside c := by
  rw [maskOf, testBit_foldl_or inside fun c => c, Nat.zero_testBit, Bool.false_or, Bool.eq_iff_iff,
    List.any_eq_true]
  constructor
  · rintro ⟨d, -, h⟩
    rw [Bool.and_eq_true, beq_iff_eq] at h
    exact h.2 ▸ h.1
  · intro h
    exact ⟨c, List.mem_range.mpr hc, by simp [h]⟩

/-- Masks that are built bit by bit from the numbers of corners have no other bits. -/
theorem foldl_or_lt (P : Nat → Bool) (f : Nat → Nat) (hf : ∀ c < 8, f c < 8) :
    (List.range 8).foldl (fun m c => if P c then m ||| 1 <<< f c else m) 0 < 256 := by
  apply Nat.lt_pow_two_of_testBit (n := 8)
  intro j hj
  rw [testBit_foldl_or, Nat.zero_testBit, Bool.false_or, List.any_eq_false]
  intro c hc h
  rw [Bool.and_eq_true, beq_iff_eq] at h
  have := hf c (List.mem_range.mp hc)
  omega

theorem maskOf_lt (inside : Nat → Bool) : maskOf inside < 256 :=
  foldl_or_lt inside (fun c => c) fun _ hc => hc

theorem eq_of_testBit_corners {m m' : CornerMask} (hm : m < 256) (hm' : m' < 256)
    (h : ∀ c < 8, m.testBit c = m'.testBit c) : m = m' := by
  apply Nat.eq_of_testBit_eq
  intro j
  by_cases hj : j < 8
  · exact h j hj
  · have hbound : 2 ^ 8 ≤ 2 ^ j := Nat.pow_le_pow_right (by omega) (by omega)
    rw [Nat.testBit_lt_two_pow (hm.trans_le hbound), Nat.testBit_lt_two_pow (hm'.trans_le hbound)]

/-! ## Runs of inside corners -/

/-- The segment that starts on the edge `ab` between corners `a` and `b`, if a run of inside corners
starts there. The corners are met in the order `a`, `b`, `c`, `d`. -/
def runFrom (a b c d : Bool) (ab bc cd da : β) : List (β × β) :=
  if !a && b then [(ab, if !c then bc else if !d then cd else da)] else []

/-- The segments of a face with corners `a`, `b`, `c`, `d` in this order. -/
def runs (a b c d : Bool) (ab bc cd da : β) : List (β × β) :=
  runFrom a b c d ab bc cd da ++ runFrom b c d a bc cd da ab ++ runFrom c d a b cd da ab bc ++
    runFrom d a b c da ab bc cd

theorem faceSegments_eq_runs (mask : CornerMask) {p q r s pq qr rs sp : Nat}
    (hpq : edgeJoining? p q = some pq) (hqr : edgeJoining? q r = some qr)
    (hrs : edgeJoining? r s = some rs) (hsp : edgeJoining? s p = some sp) :
    faceSegments mask (p, q, r, s) =
      runs (mask.testBit p) (mask.testBit q) (mask.testBit r) (mask.testBit s) pq qr rs sp := by
  simp only [faceSegments]
  cases hp : mask.testBit p <;> cases hq : mask.testBit q <;> cases hr : mask.testBit r <;>
    cases hs : mask.testBit s <;>
    simp [runs, runFrom, hp, hq, hr, hs, hpq, hqr, hrs, hsp]

theorem runs_map (f : β → γ) (a b c d : Bool) (ab bc cd da : β) :
    (runs a b c d ab bc cd da).map (Prod.map f f) = runs a b c d (f ab) (f bc) (f cd) (f da) := by
  cases a <;> cases b <;> cases c <;> cases d <;> rfl

theorem runs_outside (ab bc cd da : β) : runs false false false false ab bc cd da = [] := rfl

/-- The walk in the other direction meets the same segments from their other ends. -/
theorem pairSum_runs_reverse {w : β → β → ℤ} (hw : Alternating w) (a b c d : Bool)
    (ab bc cd da : β) :
    pairSum w (runs a d c b da cd bc ab) = -pairSum w (runs a b c d ab bc cd da) := by
  cases a <;> cases b <;> cases c <;> cases d <;>
    simp [runs, runFrom, hw bc ab, hw cd bc, hw da cd, hw ab da, hw cd ab, hw da bc, add_comm]

theorem mem_runs_reverse {a b c d : Bool} {ab bc cd da u v : β} :
    (u, v) ∈ runs a d c b da cd bc ab ↔ (v, u) ∈ runs a b c d ab bc cd da := by
  cases a <;> cases b <;> cases c <;> cases d <;>
    simp [runs, runFrom, and_comm, or_comm]

theorem mem_of_mem_runs {a b c d : Bool} {ab bc cd da : β} {s : β × β}
    (h : s ∈ runs a b c d ab bc cd da) : s.1 ∈ [ab, bc, cd, da] ∧ s.2 ∈ [ab, bc, cd, da] := by
  revert h
  cases a <;> cases b <;> cases c <;> cases d <;> simp +contextual [runs, runFrom, or_imp]

/-! ## Faces of the cube -/

abbrev Face := Nat × Nat × Nat × Nat

theorem corners_lt_of_mem_faces :
    ∀ f ∈ faces, f.1 < 8 ∧ f.2.1 < 8 ∧ f.2.2.1 < 8 ∧ f.2.2.2 < 8 := by
  decide

theorem edgeEnds_lt : ∀ e < 12, (edgeEnds e).1 < 8 ∧ (edgeEnds e).2 < 8 := by
  decide

theorem joined_of_mem_faces : ∀ f ∈ faces,
    (edgeJoining? f.1 f.2.1).isSome ∧ (edgeJoining? f.2.1 f.2.2.1).isSome ∧
      (edgeJoining? f.2.2.1 f.2.2.2).isSome ∧ (edgeJoining? f.2.2.2 f.1).isSome := by
  decide

/-- Neighbouring corners of a face are joined by edges. -/
theorem exists_edges_of_mem_faces {p q r s : Nat} (hf : (p, q, r, s) ∈ faces) :
    ∃ pq qr rs sp, edgeJoining? p q = some pq ∧ edgeJoining? q r = some qr ∧
      edgeJoining? r s = some rs ∧ edgeJoining? s p = some sp := by
  obtain ⟨hpq, hqr, hrs, hsp⟩ := joined_of_mem_faces _ hf
  obtain ⟨pq, hpq⟩ := Option.isSome_iff_exists.mp hpq
  obtain ⟨qr, hqr⟩ := Option.isSome_iff_exists.mp hqr
  obtain ⟨rs, hrs⟩ := Option.isSome_iff_exists.mp hrs
  obtain ⟨sp, hsp⟩ := Option.isSome_iff_exists.mp hsp
  exact ⟨pq, qr, rs, sp, hpq, hqr, hrs, hsp⟩

theorem lt_of_edgeJoining? {a b e : Nat} (h : edgeJoining? a b = some e) : e < 12 := by
  rw [edgeJoining?, List.findIdx?_eq_some_iff_getElem] at h
  exact h.1

theorem edgeEnds_of_edgeJoining? {a b e : Nat} (h : edgeJoining? a b = some e) :
    edgeEnds e = (a, b) ∨ edgeEnds e = (b, a) := by
  rw [edgeJoining?, List.findIdx?_eq_some_iff_getElem] at h
  obtain ⟨he, hends, -⟩ := h
  rw [Bool.or_eq_true, beq_iff_eq, beq_iff_eq] at hends
  rwa [edgeEnds, List.getD_eq_getElem?_getD, List.getElem?_eq_getElem he]

theorem mem_faceSegments_lt {mask : CornerMask} {f : Face} (hf : f ∈ faces) {s : Nat × Nat}
    (hs : s ∈ faceSegments mask f) : s.1 < 12 ∧ s.2 < 12 := by
  obtain ⟨p, q, r, t⟩ := f
  obtain ⟨pq, qr, rt, tp, hpq, hqr, hrt, htp⟩ := exists_edges_of_mem_faces hf
  rw [faceSegments_eq_runs _ hpq hqr hrt htp] at hs
  have hlt : ∀ e ∈ [pq, qr, rt, tp], e < 12 := by
    simp only [List.forall_mem_cons, lt_of_edgeJoining? hpq, lt_of_edgeJoining? hqr,
      lt_of_edgeJoining? hrt, lt_of_edgeJoining? htp]
    simp
  exact ⟨hlt _ (mem_of_mem_runs hs).1, hlt _ (mem_of_mem_runs hs).2⟩

/-- The same face from its least corner. -/
def Face.fromLeast : Face → Face
  | (p, q, r, s) =>
    if p ≤ q ∧ p ≤ r ∧ p ≤ s then (p, q, r, s)
    else if q ≤ r ∧ q ≤ s then (q, r, s, p)
    else if r ≤ s then (r, s, p, q)
    else (s, p, q, r)

theorem faceSegments_turn (mask : CornerMask) (p q r s : Nat) :
    (faceSegments mask (q, r, s, p)).Perm (faceSegments mask (p, q, r, s)) := by
  have hturn : ∀ {β : Type} (a b c d : β), [b, c, d, a].Perm [a, b, c, d] :=
    fun a b c d => List.perm_append_singleton a [b, c, d]
  exact List.Perm.filterMap _ (hturn _ _ _ _)

theorem faceSegments_fromLeast (mask : CornerMask) (f : Face) :
    (faceSegments mask f.fromLeast).Perm (faceSegments mask f) := by
  obtain ⟨p, q, r, s⟩ := f
  have hq := faceSegments_turn mask p q r s
  have hr := (faceSegments_turn mask q r s p).trans hq
  have hs := (faceSegments_turn mask r s p q).trans hr
  simp only [Face.fromLeast]
  split
  · exact .refl _
  · split
    · exact hq
    · split
      · exact hr
      · exact hs

end SolidSurface.CubeCase
