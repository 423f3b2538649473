import TxKernel.Vm.RangeLock.Lock

/-!
What the calls of the range lock do to its two tables of rows. No call panics; for each, one lemma
lists its outcomes with the rows before and after.
-/

namespace TxKernel.Vm

open ReservationIntervalTree RangeLockState Reservation List

def Free (l : List Reservation) (range : UserRange) : Prop := ∀ r ∈ l, ¬ r.range.overlaps range

/-- No row in front of `own` overlaps the range; without `own`, no row at all does. -/
def Clear (p : List Reservation) (range : UserRange) (own : Option ℕ) : Prop :=
  ∀ r ∈ p, r.range.overlaps range → ∃ id, own = some id ∧ id ≤ r.id

variable {s : RangeLockState} {l p : List Reservation} {range : UserRange} {call : Option Bool}
  {P : Prop}

lemma clear_none : Clear p range none ↔ Free p range :=
  ⟨fun h r hr ho => (by obtain ⟨_, h', -⟩ := h r hr ho; cases h'),
    fun h r hr ho => absurd ho (h r hr)⟩

/-- The call goes through and answers whether `P` holds. -/
def Answers (call : Option Bool) (P : Prop) : Prop := ∃ b, call = some b ∧ (b = true ↔ P)

lemma Answers.cases (h : Answers call P) : call = some true ∧ P ∨ call = some false ∧ ¬ P := by
  obtain ⟨b, rfl, hb⟩ := h
  cases b
  · exact .inr ⟨rfl, fun hP => Bool.false_ne_true (hb.mpr hP)⟩
  · exact .inl ⟨rfl, hb.mp rfl⟩

lemma Answers.or {call' : Option Bool} {Q : Prop} (h : Answers call P) (h' : Answers call' Q) :
    Answers (do if ← call then return true else call') (P ∨ Q) := by
  obtain ⟨b, rfl, hb⟩ := h
  obtain ⟨b', rfl, hb'⟩ := h'
  rw [← hb, ← hb']
  cases b
  · exact ⟨b', rfl, by simp⟩
  · exact ⟨true, rfl, by simp⟩

lemma answers_anyOverlapWhere {t : ReservationIntervalTree} (h : t.HasRows l) (range : UserRange) :
    Answers (t.anyOverlapWhere range fun _ => true) (¬ Free l range) := by
  refine ⟨_, h.anyOverlapWhere_ok .., ?_⟩
  rw [any_eq_true, Free]
  simp

def Disjointed (l : List Reservation) : Prop := l.Pairwise fun r r' => ¬ r.range.overlaps r'.range

lemma Disjointed.nodup_keys (h : Disjointed l) : (l.map key).Nodup := by
  refine pairwise_map.mpr (h.imp fun {r r'} hr heq => hr ?_)
  have hstart : r.range.start = r'.range.start := congrArg (fun k => (ofLex k).1) heq
  have := r.range.start_lt_stop
  have := r'.range.start_lt_stop
  exact ⟨by omega, by omega⟩

lemma Disjointed.perm {l' : List Reservation} (h : Disjointed l) (hp : l.Perm l') : Disjointed l' :=
  List.Pairwise.perm h hp fun hr ho => hr ⟨ho.2, ho.1⟩

lemma Disjointed.cons {r : Reservation} (h : Disjointed l) (hr : Free l r.range) :
    Disjointed (r :: l) :=
  pairwise_cons.mpr ⟨fun r' hr' ho => hr r' hr' ⟨ho.2, ho.1⟩, h⟩

structure LockRows (s : RangeLockState) (l p : List Reservation) : Prop where
  active : s.active.HasRows l
  pending : s.pendingWriters.HasRows p
  activeSlots : s.active.nodes.length = maxActiveRanges
  pendingSlots : s.pendingWriters.nodes.length = maxPendingWriters

namespace LockRows

lemma withNextId (h : LockRows s l p) (n : ℕ) : LockRows { s with nextId := n } l p :=
  ⟨h.active, h.pending, h.activeSlots, h.pendingSlots⟩

/-! ### Blocking -/

section

variable (h : LockRows s l p)
include h

lemma materializerBlocked_ok (range : UserRange) :
    Answers (s.materializerBlocked range) (¬ Free l range ∨ ¬ Free p range) :=
  (answers_anyOverlapWhere h.active range).or (answers_anyOverlapWhere h.pending range)

lemma answers_first (range : UserRange) (own : Option ℕ) :
    Answers (do
      let first ← s.pendingWriters.minOverlapIdWhere range fun _ => true
      match first, own with
      | some firstPendingId, some ownId => return firstPendingId < ownId
      | some _, none => return true
      | none, _ => return false) (¬ Clear p range own) := by
  rw [h.pending.minOverlapIdWhere_ok]
  rcases hmin : minHitId range (fun _ => true) p with _ | m
  · have hfree := minHitId_eq_none.mp hmin
    exact ⟨false, rfl, iff_of_false Bool.false_ne_true (not_not.mpr fun r hr ho =>
      absurd ⟨ho, rfl⟩ (hfree r hr))⟩
  obtain ⟨⟨r, hr, hit, rfl⟩, hle⟩ := minHitId_eq_some hmin
  rcases own with _ | ownId
  · refine ⟨true, rfl, iff_of_true rfl fun hc => ?_⟩
    obtain ⟨_, h', -⟩ := hc r hr hit.1
    cases h'
  refine ⟨decide (r.id < ownId), rfl, ?_⟩
  rw [decide_eq_true_eq]
  constructor
  · intro hlt hc
    obtain ⟨_, h', hge⟩ := hc r hr hit.1
    cases h'
    exact absurd hlt (not_lt.mpr hge)
  · intro hc
    by_contra hge
    exact hc fun u hu ho => ⟨ownId, rfl, (not_lt.mp hge).trans (hle u hu ⟨ho, rfl⟩)⟩

lemma writerBlocked_ok (range : UserRange) (own : Option ℕ) :
    Answers (s.writerBlocked range own) (¬ Free l range ∨ ¬ Clear p range own) :=
  (answers_anyOverlapWhere h.active range).or (h.answers_first range own)

lemma singleBlockedByPair_ok (current other : UserRange × LockMode) :
    Answers (s.singleBlockedByPair current other)
      ((¬ Free l current.1 ∨ ¬ Free p current.1) ∨ current.1.overlaps other.1) := by
  obtain ⟨range, mode⟩ := current
  cases mode with
  | exclusiveWriter =>
    obtain ⟨b, hb, hiff⟩ := h.writerBlocked_ok range none
    rw [clear_none] at hiff
    exact ⟨b || decide (range.overlaps other.1), by simp only [singleBlockedByPair, hb]; rfl,
      by rw [Bool.or_eq_true, decide_eq_true_eq, hiff]⟩
  | materializer =>
    obtain ⟨b, hb, hiff⟩ := h.materializerBlocked_ok range
    exact ⟨b || decide (range.overlaps other.1), by simp only [singleBlockedByPair, hb]; rfl,
      by rw [Bool.or_eq_true, decide_eq_true_eq, hiff]⟩

end

/-! ### Rows coming and going -/

lemma reserveActiveSlot_ok (h : LockRows s l p) (range : UserRange) (mode : LockMode) :
    (∃ s' l', s.reserveActiveSlot range mode = some (s', some s.nextId) ∧ LockRows s' l' p ∧
      l.length < maxActiveRanges ∧ l'.Perm (⟨s.nextId, range, mode⟩ :: l) ∧
      s'.nextId = idAfter s.nextId) ∨
    (s.reserveActiveSlot range mode = some (s.takeId.2, none) ∧ l.length = maxActiveRanges) := by
  rcases h.active.insert_ok ⟨s.nextId, range, mode⟩ with ⟨hlt, t', l', e, hr, hp, hlen⟩ | ⟨hfull, e⟩
  · left
    refine ⟨⟨t', s.pendingWriters, idAfter s.nextId⟩, l', ?_,
      ⟨hr, h.pending, hlen.trans h.activeSlots, h.pendingSlots⟩, h.activeSlots ▸ hlt, hp, rfl⟩
    simp [reserveActiveSlot, takeId, e]
  · right
    refine ⟨?_, hfull.trans h.activeSlots⟩
    simp [reserveActiveSlot, takeId, e]

lemma releasePendingWriter_ok (h : LockRows s l p) (id : ℕ) (range : UserRange) :
    ∃ s' p', s.releasePendingWriter id range = some s' ∧ LockRows s' l p' ∧
      (p'.map key).Perm ((p.map key).erase (keyOf range id)) ∧ p' ⊆ p ∧
      s'.nextId = s.nextId := by
  obtain ⟨t', p', removed, e, hr, hk, hsub, hlen⟩ := h.pending.remove_ok id range
  refine ⟨⟨s.active, t', s.nextId⟩, p', ?_,
    ⟨h.active, hr, h.activeSlots, hlen.trans h.pendingSlots⟩, hk, hsub, rfl⟩
  simp [releasePendingWriter, e]

lemma releaseActive_ok (h : LockRows s l p) (hl : Disjointed l) {r : Reservation} (hr : r ∈ l) :
    ∃ s' l', s.releaseActive r.id r.range = some s' ∧ LockRows s' l' p ∧ l.Perm (r :: l') ∧
      s'.nextId = s.nextId := by
  obtain ⟨t', l', removed, e, hrows, hk, hsub, hlen⟩ := h.active.remove_ok r.id r.range
  refine ⟨⟨t', s.pendingWriters, s.nextId⟩, l', ?_,
    ⟨hrows, h.pending, hlen.trans h.activeSlots, h.pendingSlots⟩,
    perm_of_keys_erase hk hsub hl.nodup_keys hr, rfl⟩
  simp [releaseActive, e]

end LockRows

/-! ### Outcomes -/

variable {lock : RangeLock}

/-- What becomes of a call that is not blocked by any row. -/
inductive Reserves (lock : RangeLock) (l p : List Reservation) (range : UserRange)
    (mode : LockMode) : RangeLock → AcquireResult → List Reservation → Prop
  | granted {lock' : RangeLock} {l' : List Reservation} (rows : LockRows lock'.state l' p)
      (room : l.length < maxActiveRanges) (perm : l'.Perm (⟨lock.state.nextId, range, mode⟩ :: l))
      (next : lock'.state.nextId = RangeLockState.idAfter lock.state.nextId) :
      Reserves lock l p range mode lock' (.acquired ⟨lock.state.nextId, range⟩) l'
  | full {lock' : RangeLock} (rows : LockRows lock'.state l p)
      (taken : l.length = maxActiveRanges)
      (next : lock'.state.nextId = RangeLockState.idAfter lock.state.nextId) :
      Reserves lock l p range mode lock' (.wouldBlock (lock.blocked none)) l

lemma acquireActive_ok (lock : RangeLock) (h : LockRows lock.state l p) (range : UserRange)
    (mode : LockMode) :
    ∃ lock' result l', lock.acquireActive range mode = some (lock', result) ∧
      Reserves lock l p range mode lock' result l' := by
  rcases h.reserveActiveSlot_ok range mode with ⟨s', l', e, hrows, hlt, hp, hn⟩ | ⟨e, hfull⟩
  · exact ⟨⟨s', lock.releaseGeneration⟩, _, l', by simp [RangeLock.acquireActive, e],
      .granted hrows hlt hp hn⟩
  · exact ⟨⟨lock.state.takeId.2, lock.releaseGeneration⟩, _, l,
      by simp [RangeLock.acquireActive, e], .full (h.withNextId _) hfull rfl⟩

inductive Acquires (lock : RangeLock) (l p : List Reservation) (range : UserRange) :
    LockMode → RangeLock → AcquireResult → List Reservation → List Reservation → Prop
  | reserves {mode : LockMode} {lock' : RangeLock} {result : AcquireResult}
      {l' : List Reservation} (free : Free l range) (clear : Free p range)
      (done : Reserves lock l p range mode lock' result l') :
      Acquires lock l p range mode lock' result l' p
  | blocked : Acquires lock l p range .materializer lock (.wouldBlock (lock.blocked none)) l p
  | queued {lock' : RangeLock} {p' : List Reservation} (rows : LockRows lock'.state l p')
      (perm : p'.Perm (⟨lock.state.nextId, range, .exclusiveWriter⟩ :: p))
      (next : lock'.state.nextId = RangeLockState.idAfter lock.state.nextId) :
      Acquires lock l p range .exclusiveWriter lock'
        (.wouldBlock (lock.blocked (some ⟨lock.state.nextId, range⟩))) l p'
  | queueFull {lock' : RangeLock} (rows : LockRows lock'.state l p)
      (next : lock'.state.nextId = RangeLockState.idAfter lock.state.nextId) :
      Acquires lock l p range .exclusiveWriter lock' (.wouldBlock (lock.blocked none)) l p

lemma queueWriter_ok (h : LockRows lock.state l p) (range : UserRange) :
    ∃ lock' result p', lock.queueWriter range = some (lock', result) ∧
      Acquires lock l p range .exclusiveWriter lock' result l p' := by
  rcases h.pending.insert_ok ⟨lock.state.nextId, range, .exclusiveWriter⟩ with
    ⟨-, t', p', e, hr, hp, hlen⟩ | ⟨-, e⟩
  · refine ⟨⟨⟨lock.state.active, t', idAfter lock.state.nextId⟩, lock.releaseGeneration⟩, _, p', ?_,
      .queued ⟨h.active, hr, h.activeSlots, hlen.trans h.pendingSlots⟩ hp rfl⟩
    simp [RangeLock.queueWriter, takeId, e]
  · refine ⟨⟨lock.state.takeId.2, lock.releaseGeneration⟩, _, p, ?_,
      .queueFull (h.withNextId _) rfl⟩
    simp [RangeLock.queueWriter, takeId, e]

lemma acquireStepRich_ok (h : LockRows lock.state l p) (range : UserRange) (mode : LockMode) :
    ∃ lock' result l' p', lock.acquireStepRich range mode = some (lock', result) ∧
      Acquires lock l p range mode lock' result l' p' := by
  obtain ⟨lock1, result1, l1, e1, hdone⟩ := acquireActive_ok lock h range mode
  cases mode with
  | materializer =>
    rcases (h.materializerBlocked_ok range).cases with ⟨hb, -⟩ | ⟨hb, hfree⟩
    · exact ⟨lock, _, l, p, by simp [RangeLock.acquireStepRich, hb], .blocked⟩
    rw [not_or, not_not, not_not] at hfree
    exact ⟨lock1, result1, l1, p, by simp [RangeLock.acquireStepRich, hb, e1],
      .reserves hfree.1 hfree.2 hdone⟩
  | exclusiveWriter =>
    rcases (h.writerBlocked_ok range none).cases with ⟨hb, -⟩ | ⟨hb, hfree⟩
    · obtain ⟨lock2, result2, p2, e2, hqueue⟩ := queueWriter_ok h range
      exact ⟨lock2, result2, l, p2, by simp [RangeLock.acquireStepRich, hb, e2], hqueue⟩
    rw [not_or, not_not, not_not, clear_none] at hfree
    exact ⟨lock1, result1, l1, p, by simp [RangeLock.acquireStepRich, hb, e1],
      .reserves hfree.1 hfree.2 hdone⟩

inductive AcquiresPair (lock : RangeLock) (l p : List Reservation) (a b : UserRange × LockMode) :
    RangeLock → AcquirePairResult → List Reservation → Prop
  | blocked : AcquiresPair lock l p a b lock (.wouldBlock (lock.blocked none)) l
  | granted {lock' : RangeLock} {l' : List Reservation} (free : Free l a.1 ∧ Free l b.1)
      (clear : Free p a.1 ∧ Free p b.1) (apart : ¬ a.1.overlaps b.1)
      (rows : LockRows lock'.state l' p)
      (perm : l'.Perm (⟨RangeLockState.idAfter lock.state.nextId, b.1, b.2⟩ ::
        ⟨lock.state.nextId, a.1, a.2⟩ :: l))
      (next : lock'.state.nextId =
        RangeLockState.idAfter (RangeLockState.idAfter lock.state.nextId)) :
      AcquiresPair lock l p a b lock' (.acquired ⟨lock.state.nextId, a.1⟩
        ⟨RangeLockState.idAfter lock.state.nextId, b.1⟩) l'
  | full {lock' : RangeLock} {l' : List Reservation} (rows : LockRows lock'.state l' p)
      (perm : l'.Perm l)
      (next : lock'.state.nextId =
        RangeLockState.idAfter (RangeLockState.idAfter lock.state.nextId)) :
      AcquiresPair lock l p a b lock' (.wouldBlock (lock.blocked none)) l'

lemma acquirePairStepRich_ok (h : LockRows lock.state l p) (hl : Disjointed l)
    (a b : UserRange × LockMode) :
    ∃ lock' result l', lock.acquirePairStepRich a b = some (lock', result) ∧
      AcquiresPair lock l p a b lock' result l' := by
  have hblocked : Answers (lock.state.pairBlocked a b) _ :=
    (h.singleBlockedByPair_ok a b).or (h.singleBlockedByPair_ok b a)
  rcases hblocked.cases with ⟨hb, -⟩ | ⟨hb, hfree⟩
  · exact ⟨lock, _, l, by simp [RangeLock.acquirePairStepRich, hb], .blocked⟩
  simp only [not_or, not_not] at hfree
  obtain ⟨⟨⟨hla, hpa⟩, hab⟩, ⟨hlb, hpb⟩, -⟩ := hfree
  rcases h.reserveActiveSlot_ok a.1 a.2 with ⟨s1, l1, e1, h1, hlt, hp1, hn1⟩ | ⟨e1, hfull⟩
  · have hl1 : Disjointed l1 := (hl.cons (r := ⟨_, a.1, a.2⟩) hla).perm hp1.symm
    rcases h1.reserveActiveSlot_ok b.1 b.2 with ⟨s2, l2, e2, h2, -, hp2, hn2⟩ | ⟨e2, -⟩
    · rw [hn1] at e2 hp2 hn2
      refine ⟨⟨s2, lock.releaseGeneration⟩, _, l2, ?_, .granted ⟨hla, hlb⟩ ⟨hpa, hpb⟩ hab h2
        (hp2.trans (hp1.cons _)) hn2⟩
      simp [RangeLock.acquirePairStepRich, hb, e1, e2]
    have hmem : (⟨lock.state.nextId, a.1, a.2⟩ : Reservation) ∈ l1 :=
      hp1.mem_iff.mpr (mem_cons_self ..)
    obtain ⟨s3, l3, e3, h3, hp3, hn3⟩ := (h1.withNextId (idAfter s1.nextId)).releaseActive_ok
      hl1 hmem
    refine ⟨⟨s3, lock.releaseGeneration⟩, _, l3, ?_, .full h3
      (perm_cons _ |>.mp (hp3.symm.trans hp1)) ?_⟩
    · simp [RangeLock.acquirePairStepRich, hb, e1, e2, takeId, e3]
    · rw [hn3, hn1]
  · have h1 : LockRows lock.state.takeId.2 l p := h.withNextId _
    rcases h1.reserveActiveSlot_ok b.1 b.2 with ⟨-, -, -, -, hlt, -⟩ | ⟨e2, -⟩
    · omega
    refine ⟨⟨lock.state.takeId.2.takeId.2, lock.releaseGeneration⟩, _, l, ?_,
      .full (h1.withNextId _) (.refl _) rfl⟩
    simp [RangeLock.acquirePairStepRich, hb, e1, e2]

inductive TriesAcquire (lock : RangeLock) (l p : List Reservation) (w : PendingWriter) :
    RangeLock → AcquireResult → List Reservation → List Reservation → Prop
  | blocked (why : ¬ (Free l w.range ∧ Clear p w.range (some w.id))) :
      TriesAcquire lock l p w lock (.wouldBlock (lock.blocked (some w))) l p
  | reserves {lock1 lock' : RangeLock} {result : AcquireResult} {l' p' : List Reservation}
      (free : Free l w.range) (clear : Clear p w.range (some w.id))
      (keys : (p'.map Reservation.key).Perm ((p.map Reservation.key).erase (keyOf w.range w.id)))
      (subset : p' ⊆ p) (next : lock1.state.nextId = lock.state.nextId)
      (done : Reserves lock1 l p' w.range .exclusiveWriter lock' result l') :
      TriesAcquire lock l p w lock' result l' p'

lemma tryAcquire_ok (h : LockRows lock.state l p) (w : PendingWriter) :
    ∃ lock' result l' p', lock.tryAcquire w = some (lock', result) ∧
      TriesAcquire lock l p w lock' result l' p' := by
  rcases (h.writerBlocked_ok w.range (some w.id)).cases with ⟨hb, hwhy⟩ | ⟨hb, hfree⟩
  · refine ⟨lock, _, l, p, by simp [RangeLock.tryAcquire, hb], .blocked ?_⟩
    rw [not_and_or]
    exact hwhy
  rw [not_or, not_not, not_not] at hfree
  obtain ⟨s1, p1, e1, h1, hk, hsub, hn⟩ := h.releasePendingWriter_ok w.id w.range
  obtain ⟨lock', result, l', e2, hdone⟩ :=
    acquireActive_ok ⟨s1, lock.releaseGeneration⟩ h1 w.range .exclusiveWriter
  exact ⟨lock', result, l', p1, by simp [RangeLock.tryAcquire, hb, e1, e2],
    .reserves hfree.1 hfree.2 hk hsub hn hdone⟩

end TxKernel.Vm
