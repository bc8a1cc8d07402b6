import SolidSurface.Proofs.Scalar.Fraction
import SolidSurface.Mesh.Topology
import SolidSurface.Proofs.Mesh.VertexIndex

/-! # Histories of a mesh

A mesh answers every sequence of edits and questions as its log does, and refuses a request when the
log does. The number of live triangles and the vertex index are derived from the log, so the
invariant is that they agree with it; in particular an index that has been kept is the one that
would be made anew.
-/

namespace SolidSurface

variable {α κ : Type}

/-- What can be done to a mesh or asked of it. A copy is worked on in place of what it is a copy
of. -/
inductive MeshRequest (α : Type) where
  | start
  | startWithCapacity (n : Nat)
  | copy
  | add (t : Triangle α)
  | remove (id : TriangleHandle)
  | extend (ts : List (Triangle α))
  | mapPoints (f : Point α → Point α)
  | get (id : TriangleHandle)
  | entries
  | size
  | find (p : Point α)
  | singularPoints

inductive MeshReply (α : Type) where
  | done
  | handle (id : TriangleHandle)
  | triangle (t? : Option (Triangle α))
  | entries (es : List (TriangleHandle × Triangle α))
  | size (n : Nat)
  | handles (ids : List TriangleHandle)
  | points (ps : List (Point α))
  deriving DecidableEq

namespace MeshRequest

/-- Whether handles are issued from the first one on again. -/
def restarts : MeshRequest α → Bool
  | start | startWithCapacity _ => true
  | _ => false

/-- The number of handles issued since the last start, from the number before the request. -/
def issued (n : Nat) : MeshRequest α → Nat
  | start | startWithCapacity _ => 0
  | add _ => n + 1
  | extend ts => n + ts.length
  | _ => n

/-- Why a request is refused when `n` handles have been issued, if it is. An extension has to leave a
handle free. -/
def refusal? (n : Nat) : MeshRequest α → Option MeshError
  | startWithCapacity c => if VectorFits c Mesh.slotBytes then none else some .capacityOverflow
  | add _ => if n < handleCount then none else some .tooManySlots
  | extend ts => if n + ts.length < handleCount then none else some .tooManySlots
  | _ => none

end MeshRequest

/-! ## Answers -/

section Histories

variable {ρ σ β ε : Type}

/-- How far requests have been carried out: the replies, the state they have led to, and why the
next one was refused, unless it was the last. -/
structure Outcome (ε σ β : Type) where
  replies : List β
  state : σ
  refusal? : Option ε

/-- Makes requests one after the other, up to the first that is refused. -/
def carryOut (respond : ρ → σ → Except ε (β × σ)) : List ρ → σ → Outcome ε σ β
  | [], s => ⟨[], s, none⟩
  | r :: rs, s =>
    match respond r s with
    | .error e => ⟨[], s, some e⟩
    | .ok (b, s) =>
      let rest := carryOut respond rs s
      ⟨b :: rest.replies, rest.state, rest.refusal?⟩

/-- The state that a list of requests leads to. -/
def stateAfter (respond : ρ → σ → Except ε (β × σ)) (rs : List ρ) (s : σ) : σ :=
  (carryOut respond rs s).state

variable {respond : ρ → σ → Except ε (β × σ)} {r : ρ} {rs : List ρ} {s : σ}

theorem carryOut_cons_of_refused {e : ε} (h : respond r s = .error e) :
    carryOut respond (r :: rs) s = ⟨[], s, some e⟩ := by
  rw [carryOut, h]

theorem carryOut_cons_of_ok {b : β} {s' : σ} (h : respond r s = .ok (b, s')) :
    carryOut respond (r :: rs) s =
      ⟨b :: (carryOut respond rs s').replies, (carryOut respond rs s').state,
        (carryOut respond rs s').refusal?⟩ := by
  rw [carryOut, h]

end Histories

section Respond

variable [BEq κ] [Hashable κ] [Keyed α κ] [Ord κ]

def Mesh.respond (r : MeshRequest α) (m : Mesh α κ) :
    Except MeshError (MeshReply α × Mesh α κ) :=
  match r with
  | .start => .ok (.done, empty)
  | .startWithCapacity n => (emptyWithCapacity n).map fun m => (.done, m)
  | .copy => .ok (.done, m)
  | .add t => (m.add t).map fun (id, m) => (.handle id, m)
  | .remove id => let (t?, m) := m.remove id; .ok (.triangle t?, m)
  | .extend ts => (m.extend ts).map fun m => (.done, m)
  | .mapPoints f => .ok (.done, m.mapPoints f)
  | .get id => .ok (.triangle (m.get? id), m)
  | .entries => .ok (.entries m.entries, m)
  | .size => .ok (.size m.size, m)
  | .find p => let (ids, m) := m.find p; .ok (.handles ids, m)
  | .singularPoints => let (ps, m) := m.singularPoints; .ok (.points ps, m)

namespace TriangleLog

/-- The singular vertices, from an index that is made for the purpose. -/
def singularPoints (l : TriangleLog α) : List (Point α) :=
  (Mesh.singularKeys (Mesh.indexEntries l.entries : HandleIndex κ) l.get?).map PointKey.point

/-- A log knows nothing of an index: a triangle is found by looking through the entries. -/
def reply (r : MeshRequest α) (l : TriangleLog α) : MeshReply α :=
  match r with
  | .start | .startWithCapacity _ | .copy | .extend _ | .mapPoints _ => .done
  | .add _ => .handle ⟨.ofNat l.length⟩
  | .remove id | .get id => .triangle (l.get? id)
  | .entries => .entries l.entries
  | .size => .size l.live
  | .find p => .handles (l.handlesAt (PointKey.ofPoint p))
  | .singularPoints => .points (l.singularPoints (κ := κ))

/-- What a request makes of a log. -/
def next (r : MeshRequest α) (l : TriangleLog α) : TriangleLog α :=
  match r with
  | .start | .startWithCapacity _ => []
  | .add t => l ++ [some t]
  | .remove id => l.set id.slot.toNat none
  | .extend ts => l ++ ts.map some
  | .mapPoints f => l.map (Option.map (Triangle.map f))
  | .copy | .get _ | .entries | .size | .find _ | .singularPoints => l

def respond (r : MeshRequest α) (l : TriangleLog α) :
    Except MeshError (MeshReply α × TriangleLog α) :=
  match r.refusal? l.length with
  | some e => .error e
  | none => .ok (l.reply (κ := κ) r, l.next r)

end TriangleLog

end Respond

/-! ## The invariant -/

namespace Mesh

variable [BEq κ] [Hashable κ]

/-- What a mesh keeps beside its log agrees with the log. -/
structure Represents [Keyed α κ] (m : Mesh α κ) (l : TriangleLog α) : Prop where
  log_eq : m.log = l
  liveCount_eq : m.liveCount = l.live
  index?_eq : ∀ index, m.index? = some index → index = m.buildIndex

section Edits

variable [Keyed α κ] {m : Mesh α κ} {l : TriangleLog α}

theorem represents_empty : (empty : Mesh α κ).Represents [] :=
  ⟨rfl, rfl, fun _ h => nomatch h⟩

theorem Represents.size_slots (h : m.Represents l) : m.slots.size = l.length := by
  rw [← h.log_eq]
  rfl

theorem Represents.length_le (h : m.Represents l) : l.length ≤ handleCount :=
  h.size_slots ▸ m.size_slots_le

theorem exists_emptyWithCapacity {n : Nat} (hn : VectorFits n slotBytes) :
    ∃ m : Mesh α κ, emptyWithCapacity n = .ok m ∧ m.Represents [] :=
  ⟨_, if_pos hn, rfl, rfl, fun _ h => nomatch h⟩

theorem Represents.exists_add (h : m.Represents l) (t : Triangle α) (hl : l.length < handleCount) :
    ∃ m', m.add t = .ok (⟨.ofNat l.length⟩, m') ∧ m'.Represents (l ++ [some t]) := by
  obtain ⟨rfl, hlive, -⟩ := h
  refine ⟨_, dif_pos hl, Array.toList_push, ?_, fun _ h => nomatch h⟩
  rw [TriangleLog.live, List.countP_append, ← TriangleLog.live, ← hlive]
  rfl

theorem Represents.exists_extend (h : m.Represents l) {ts : List (Triangle α)}
    (hl : l.length + ts.length < handleCount) :
    ∃ m', m.extend ts = .ok m' ∧ m'.Represents (l ++ ts.map some) := by
  obtain ⟨rfl, hlive, -⟩ := h
  refine ⟨_, dif_pos hl, Array.toList_append, ?_, fun _ h => nomatch h⟩
  rw [TriangleLog.live, List.countP_append, ← TriangleLog.live, ← hlive, List.countP_map]
  simp [Function.comp_def]

theorem Represents.mapPoints (h : m.Represents l) (f : Point α → Point α) :
    (m.mapPoints f).Represents (l.map (Option.map (Triangle.map f))) where
  log_eq := by
    rw [← h.log_eq]
    exact Array.toList_map
  liveCount_eq := by
    rw [TriangleLog.live, List.countP_map]
    simp [Mesh.mapPoints, h.liveCount_eq, TriangleLog.live, Function.comp_def]
  index?_eq _ h := nomatch h

theorem Represents.get? (h : m.Represents l) (id : TriangleHandle) : m.get? id = l.get? id := by
  rw [get?_eq_log, h.log_eq]

/-- Taking out what is not there keeps everything, the index included. -/
theorem Represents.remove (h : m.Represents l) (id : TriangleHandle) :
    (m.remove id).1 = l.get? id ∧ (m.remove id).2.Represents (l.set id.slot.toNat none) := by
  have hget := h.get? id
  rw [Mesh.remove]
  split
  · rename_i hm
    rw [hm] at hget
    refine ⟨hget, ?_⟩
    rw [TriangleLog.set_none_eq_self hget.symm]
    exact h
  · rename_i t hm
    rw [hm] at hget
    refine ⟨hget, ?_, ?_, fun _ h => nomatch h⟩
    · rw [← h.log_eq]
      exact Array.toList_setIfInBounds
    · rw [TriangleLog.live_set_none hget.symm, ← h.liveCount_eq]

end Edits

section Lookups

variable [Keyed α κ] {m : Mesh α κ} {l : TriangleLog α}

theorem withIndex_eq (h : m.Represents l) : m.withIndex.1 = m.buildIndex ∧
    m.withIndex.2.Represents l ∧ m.withIndex.2.slots = m.slots := by
  rw [withIndex]
  cases hindex : m.index? with
  | none => exact ⟨rfl, ⟨h.log_eq, h.liveCount_eq, fun _ h => (Option.some.inj h).symm⟩, rfl⟩
  | some index => exact ⟨h.index?_eq index hindex, h, rfl⟩

theorem Represents.find [LawfulBEq κ] (h : m.Represents l) (p : Point α) :
    (m.find p).1 = l.handlesAt (PointKey.ofPoint p) ∧ (m.find p).2.Represents l := by
  obtain ⟨hindex, hrep, -⟩ := withIndex_eq h
  refine ⟨?_, hrep⟩
  rw [← h.log_eq, ← getD_buildIndex, ← hindex]
  rfl

theorem Represents.singularPoints [Ord κ] (h : m.Represents l) :
    m.singularPoints.1 = l.singularPoints (κ := κ) ∧ m.singularPoints.2.Represents l := by
  obtain ⟨hindex, hrep, -⟩ := withIndex_eq h
  refine ⟨?_, hrep⟩
  have hget : m.withIndex.2.get? = l.get? := funext hrep.get?
  have hbuilt : m.withIndex.1 = indexEntries l.entries := by
    rw [hindex, buildIndex, entries_eq_log, h.log_eq]
  rw [TriangleLog.singularPoints, ← hget, ← hbuilt]
  rfl

end Lookups

section Requests

variable [Keyed α κ] [Ord κ] {m : Mesh α κ} {l : TriangleLog α} {r : MeshRequest α}

/-- A mesh refuses what its log refuses. -/
theorem Represents.respond_of_refused (h : m.Represents l) {e : MeshError}
    (hr : r.refusal? l.length = some e) : Mesh.respond r m = .error e := by
  cases r with
  | startWithCapacity n =>
      obtain ⟨hfits, ⟨⟩⟩ := Option.ite_none_left_eq_some.mp hr
      rw [Mesh.respond, emptyWithCapacity, if_neg hfits]
      rfl
  | add t =>
      obtain ⟨hroom, ⟨⟩⟩ := Option.ite_none_left_eq_some.mp hr
      rw [Mesh.respond, Mesh.add, dif_neg (h.size_slots ▸ hroom)]
      rfl
  | extend ts =>
      obtain ⟨hroom, ⟨⟩⟩ := Option.ite_none_left_eq_some.mp hr
      rw [Mesh.respond, Mesh.extend, dif_neg (h.size_slots ▸ hroom)]
      rfl
  | _ => cases hr

/-- A request that is not refused finds the mesh and its log agreeing and leaves them so. -/
theorem Represents.exists_respond [LawfulBEq κ] (h : m.Represents l)
    (hr : r.refusal? l.length = none) :
    ∃ m', Mesh.respond r m = .ok (l.reply (κ := κ) r, m') ∧ m'.Represents (l.next r) := by
  cases r with
  | start => exact ⟨_, rfl, represents_empty⟩
  | startWithCapacity n =>
      have hfits : VectorFits n slotBytes := by simpa [MeshRequest.refusal?] using hr
      obtain ⟨m', hm', hrep⟩ := exists_emptyWithCapacity (α := α) (κ := κ) hfits
      exact ⟨m', by rw [Mesh.respond, hm']; rfl, hrep⟩
  | copy => exact ⟨m, rfl, h⟩
  | add t =>
      have hroom : l.length < handleCount := by simpa [MeshRequest.refusal?] using hr
      obtain ⟨m', hm', hrep⟩ := h.exists_add t hroom
      exact ⟨m', by rw [Mesh.respond, hm']; rfl, hrep⟩
  | remove id =>
      obtain ⟨htaken, hrep⟩ := h.remove id
      exact ⟨_, congrArg (fun t? => Except.ok (MeshReply.triangle t?, _)) htaken, hrep⟩
  | extend ts =>
      have hroom : l.length + ts.length < handleCount := by simpa [MeshRequest.refusal?] using hr
      obtain ⟨m', hm', hrep⟩ := h.exists_extend hroom
      exact ⟨m', by rw [Mesh.respond, hm']; rfl, hrep⟩
  | mapPoints f => exact ⟨_, rfl, h.mapPoints f⟩
  | get id => exact ⟨m, congrArg (fun t? => Except.ok (MeshReply.triangle t?, m)) (h.get? id), h⟩
  | entries =>
      refine ⟨m, ?_, h⟩
      rw [TriangleLog.reply, ← h.log_eq]
      rfl
  | size => exact ⟨m, congrArg (fun n => Except.ok (MeshReply.size n, m)) h.liveCount_eq, h⟩
  | find p =>
      obtain ⟨hfound, hrep⟩ := h.find p
      exact ⟨_, congrArg (fun ids => Except.ok (MeshReply.handles ids, _)) hfound, hrep⟩
  | singularPoints =>
      obtain ⟨hpoints, hrep⟩ := h.singularPoints
      exact ⟨_, congrArg (fun ps => Except.ok (MeshReply.points ps, _)) hpoints, hrep⟩

/-- A list of requests is carried out as far as the log carries it out. -/
theorem Represents.carryOut [LawfulBEq κ] (h : m.Represents l) (rs : List (MeshRequest α)) :
    let made := SolidSurface.carryOut Mesh.respond rs m
    let logged := SolidSurface.carryOut (TriangleLog.respond (κ := κ)) rs l
    made.replies = logged.replies ∧ made.state.Represents logged.state ∧
      made.refusal? = logged.refusal? := by
  induction rs generalizing m l with
  | nil => exact ⟨rfl, h, rfl⟩
  | cons r rs ih =>
      cases hr : r.refusal? l.length with
      | some e =>
          have hlog : TriangleLog.respond (κ := κ) r l = .error e := by
            rw [TriangleLog.respond, hr]
          rw [carryOut_cons_of_refused (h.respond_of_refused hr), carryOut_cons_of_refused hlog]
          exact ⟨rfl, h, rfl⟩
      | none =>
          have hlog : TriangleLog.respond (κ := κ) r l = .ok (l.reply r, l.next r) := by
            rw [TriangleLog.respond, hr]
          obtain ⟨m', hm', hrep⟩ := h.exists_respond hr
          rw [carryOut_cons_of_ok hm', carryOut_cons_of_ok hlog]
          obtain ⟨hreplies, hstate, hrefusal⟩ := ih hrep
          exact ⟨congrArg _ hreplies, hstate, hrefusal⟩

theorem represents_stateAfter [LawfulBEq κ] (rs : List (MeshRequest α)) :
    (stateAfter Mesh.respond rs (empty : Mesh α κ)).Represents
      (stateAfter (TriangleLog.respond (κ := κ)) rs []) :=
  (represents_empty.carryOut rs).2.1

end Requests

end Mesh

/-! ## Handles -/

namespace TriangleLog

theorem length_next (r : MeshRequest α) (l : TriangleLog α) :
    (l.next r).length = r.issued l.length := by
  cases r <;> simp [next, MeshRequest.issued]

/-- A gap is not filled again before the log starts anew. -/
theorem getElem?_next_of_gap {r : MeshRequest α} {l : TriangleLog α} {i : Nat}
    (hr : r.restarts = false) (hgap : l[i]? = some none) : (l.next r)[i]? = some none := by
  have hi : i < l.length := (List.getElem?_eq_some_iff.mp hgap).1
  cases r with
  | start => cases hr
  | startWithCapacity n => cases hr
  | add t => exact (List.getElem?_append_left hi).trans hgap
  | extend ts => exact (List.getElem?_append_left hi).trans hgap
  | remove id =>
      rw [next, List.getElem?_set]
      split
      · rw [if_pos (by omega)]
      · exact hgap
  | mapPoints f => simp [next, hgap]
  | copy => exact hgap
  | get id => exact hgap
  | entries => exact hgap
  | size => exact hgap
  | find p => exact hgap
  | singularPoints => exact hgap

variable [BEq κ] [Hashable κ] [Keyed α κ] [Ord κ]

/-- Of a list of requests a log carries out those before the first that the number of handles
issued so far rules out. -/
structure StopsAtRefusal (rs : List (MeshRequest α)) (n : Nat)
    (o : Outcome MeshError (TriangleLog α) (MeshReply α)) : Prop where
  length_le : o.replies.length ≤ rs.length
  length_eq : o.state.length = (rs.take o.replies.length).foldl MeshRequest.issued n
  refusal?_eq : o.refusal? = rs[o.replies.length]?.bind fun r => r.refusal? o.state.length
  admitted : ∀ i < o.replies.length, ∀ r, rs[i]? = some r →
    r.refusal? ((rs.take i).foldl MeshRequest.issued n) = none

theorem stopsAtRefusal (rs : List (MeshRequest α)) (l : TriangleLog α) :
    StopsAtRefusal rs l.length (carryOut (respond (κ := κ)) rs l) := by
  induction rs generalizing l with
  | nil => exact ⟨Nat.le_refl 0, rfl, rfl, fun _ h => absurd h (Nat.not_lt_zero _)⟩
  | cons r rs ih =>
      cases hr : r.refusal? l.length with
      | some e =>
          have hlog : respond (κ := κ) r l = .error e := by rw [respond, hr]
          rw [carryOut_cons_of_refused hlog]
          exact ⟨Nat.zero_le _, rfl, hr.symm, fun _ h => absurd h (Nat.not_lt_zero _)⟩
      | none =>
          have hlog : respond (κ := κ) r l = .ok (l.reply r, l.next r) := by rw [respond, hr]
          rw [carryOut_cons_of_ok hlog]
          obtain ⟨hle, hlength, hrefusal, hadmitted⟩ := length_next r l ▸ ih (l.next r)
          refine ⟨Nat.succ_le_succ hle, hlength, hrefusal, fun i hi r' hr' => ?_⟩
          cases i with
          | zero => exact Option.some.inj hr' ▸ hr
          | succ i => exact hadmitted i (Nat.lt_of_succ_lt_succ hi) r' hr'

theorem getElem?_stateAfter_of_gap {rs : List (MeshRequest α)} {l : TriangleLog α} {i : Nat}
    (hrs : ∀ r ∈ rs, r.restarts = false) (hgap : l[i]? = some none) :
    (stateAfter (respond (κ := κ)) rs l)[i]? = some none := by
  induction rs generalizing l with
  | nil => exact hgap
  | cons r rs ih =>
      rw [stateAfter]
      cases hr : r.refusal? l.length with
      | some e =>
          have hlog : respond (κ := κ) r l = .error e := by rw [respond, hr]
          rw [carryOut_cons_of_refused hlog]
          exact hgap
      | none =>
          have hlog : respond (κ := κ) r l = .ok (l.reply r, l.next r) := by rw [respond, hr]
          rw [carryOut_cons_of_ok hlog]
          exact ih (fun r' hr' => hrs r' (List.mem_cons_of_mem r hr'))
            (getElem?_next_of_gap (hrs r List.mem_cons_self) hgap)

end TriangleLog

/-! ## The refinement -/

variable [BEq κ] [Hashable κ] [Keyed α κ] [Ord κ]

/-- A mesh replies to every history as its log does, and stops where its log does: before the first
request that the number of handles issued rules out. The handles issued since the last start are
0, 1, 2, ..., each of them once, until all are in use; a lookup finds the live triangles with a
corner of the key, in order and each once; and a handle that was taken out stays so. -/
theorem Mesh.replies_eq_replies_log [LawfulBEq κ] (rs : List (MeshRequest α)) :
    let made := carryOut respond rs (empty : Mesh α κ)
    let logged := carryOut (TriangleLog.respond (κ := κ)) rs []
    let m := made.state
    let issued := (rs.take made.replies.length).foldl MeshRequest.issued 0
    made.replies = logged.replies ∧ made.refusal? = logged.refusal? ∧
      made.replies.length ≤ rs.length ∧
      made.refusal? = rs[made.replies.length]?.bind (fun r => r.refusal? issued) ∧
      (∀ i < made.replies.length, ∀ r, rs[i]? = some r →
        r.refusal? ((rs.take i).foldl MeshRequest.issued 0) = none) ∧
      issued ≤ handleCount ∧
      (∀ t, if issued < handleCount then
          ∃ id m', m.add t = .ok (id, m') ∧ id.slot.toNat = issued
        else m.add t = .error .tooManySlots) ∧
      (∀ p, (m.find p).1.Pairwise (fun id id' => id.slot < id'.slot) ∧
        ∀ id, id ∈ (m.find p).1 ↔
          ∃ t, m.get? id = some t ∧ t.touches (PointKey.ofPoint p) = true) ∧
      ∀ id later, id.slot.toNat < issued → (∀ r ∈ later, r.restarts = false) →
        (stateAfter respond (.remove id :: later) m).get? id = none := by
  intro made logged m issued
  obtain ⟨hreplies, hrep, hrefusal⟩ := represents_empty.carryOut (κ := κ) rs
  obtain ⟨hle, hlength, hstops, hadmitted⟩ := TriangleLog.stopsAtRefusal (κ := κ) rs []
  rw [← hreplies] at hle hlength hstops
  rw [hlength] at hstops
  have hissued : logged.state.length = issued := hlength
  refine ⟨hreplies, hrefusal, hle, hrefusal.trans hstops, hreplies ▸ hadmitted,
    hissued ▸ hrep.length_le, fun t => ?_, fun p => ?_, fun id later hid hlater => ?_⟩
  · split
    · rename_i hroom
      obtain ⟨m', hm', -⟩ := hrep.exists_add t (hissued ▸ hroom)
      exact ⟨_, m', hm', (UInt32.toNat_ofNat_of_lt (hissued ▸ hroom)).trans hissued⟩
    · rename_i hfull
      exact dif_neg fun hroom => hfull (hissued ▸ hrep.size_slots ▸ hroom)
  · rw [(hrep.find p).1]
    refine ⟨TriangleLog.pairwise_handlesAt hrep.length_le _, fun id => ?_⟩
    rw [TriangleLog.mem_handlesAt hrep.length_le, hrep.get?]
  · have hremoved := (hrep.carryOut (.remove id :: later)).2.1
    have hgap : (logged.state.set id.slot.toNat none)[id.slot.toNat]? = some none := by
      rw [List.getElem?_set_self (hissued ▸ hid)]
    rw [stateAfter, hremoved.get?, TriangleLog.get?]
    exact congrArg Option.join
      (TriangleLog.getElem?_stateAfter_of_gap (κ := κ) hlater hgap)

/-- Two triangles at the origin, looked up between edits. In the end there is a request for more
room than a vector can have. -/
def editedHistory : List (MeshRequest Fraction) :=
  let t : Triangle Fraction := ⟨⟨0, 0, 0⟩, ⟨1, 0, 0⟩, ⟨0, 1, 0⟩⟩
  let u : Triangle Fraction := ⟨⟨0, 0, 0⟩, ⟨0, 1, 0⟩, ⟨-1, 0, 0⟩⟩
  [.add t, .find ⟨0, 0, 0⟩, .extend [u, u], .copy, .find ⟨0, 0, 0⟩, .remove ⟨0⟩, .remove ⟨0⟩,
    .remove ⟨7⟩, .find ⟨0, 0, 0⟩, .mapPoints fun p => ⟨p.x + 1, p.y, p.z⟩, .find ⟨0, 0, 0⟩, .add t,
    .get ⟨0⟩, .size, .start, .find ⟨0, 0, 0⟩, .add u, .startWithCapacity (2 ^ 60), .find ⟨0, 0, 0⟩]

theorem Mesh.replies_editedHistory :
    let made := carryOut respond editedHistory (empty : Mesh Fraction Fraction)
    made.replies.filterMap
        (fun | .handles ids => some (ids.map TriangleHandle.slot) | _ => none) =
      [[0], [0, 1, 2], [1, 2], [1, 2], []] ∧
      made.refusal? = some .capacityOverflow := by
  intro made
  obtain ⟨hreplies, hrefusal, -⟩ := replies_eq_replies_log (κ := Fraction) editedHistory
  rw [hreplies, hrefusal]
  constructor <;> decide +kernel

end SolidSurface
