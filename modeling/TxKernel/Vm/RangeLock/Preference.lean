import TxKernel.Vm.RangeLock.Exclusion

/-!
Writer preference of the range lock. While ids have not wrapped around they grow along the queue. A
pending writer that is not blocked gives up its row before it asks for an active slot: with all
slots taken it ends up with neither.
-/

namespace TxKernel.Vm

open ReservationIntervalTree List List.Sublist RangeLockState Runs

def Reservation.writer (r : Reservation) : PendingWriter := ⟨r.id, r.range⟩

namespace RangeLockSystem

variable {S S' : RangeLockSystem} {l p : List Reservation} {w : PendingWriter} {i : ℕ}

/-- The pending rows are those of the outstanding pending writers, whose ids grow in the order in
which they queued. -/
structure Queues (S : RangeLockSystem) (l p : List Reservation) : Prop extends Excludes S l p where
  pending : (p.map Reservation.writer).Perm S.pending
  order : S.pending.Pairwise fun w w' => w.id < w'.id
  fresh : ∀ w ∈ S.pending, w.id < S.lock.state.nextId
  positive : ∀ w ∈ S.pending, 0 < w.id
  next : 0 < S.lock.state.nextId

lemma queues_init : Queues init [] [] :=
  ⟨excludes_init, .refl _, List.Pairwise.nil, by simp [init], by simp [init], Nat.one_pos⟩

/-- The next call takes at most two ids, and they do not wrap around. -/
abbrev IdsLeft (S : RangeLockSystem) : Prop := S.lock.state.nextId + 2 < 2 ^ 64

lemma idAfter_eq (id : ℕ) (h : id + 1 < 2 ^ 64) : idAfter id = id + 1 := by
  rw [idAfter, Nat.mod_eq_of_lt h]
  omega

lemma Queues.nodup_keys (h : Queues S l p) : (p.map Reservation.key).Nodup := by
  have hids : (S.pending.map (·.id)).Nodup := pairwise_map.mpr (h.order.imp fun h => h.ne)
  have hids' : (p.map (·.id)).Nodup := by
    have := (h.pending.map (·.id)).nodup_iff.mpr hids
    rwa [map_map] at this
  have hcomp : p.map (·.id) = (p.map Reservation.key).map fun k => (ofLex k).2 := by
    rw [map_map]
    rfl
  rw [hcomp] at hids'
  exact hids'.of_map

lemma Queues.row (h : Queues S l p) (hi : S.pending[i]? = some w) : ∃ r ∈ p, r.writer = w :=
  mem_map.mp (h.pending.mem_iff.mpr (mem_of_getElem? hi))

lemma Queues.erased (h : Queues S l p) (hi : S.pending[i]? = some w) {p' : List Reservation}
    (hk : (p'.map Reservation.key).Perm ((p.map Reservation.key).erase (keyOf w.range w.id)))
    (hsub : p' ⊆ p) : (p'.map Reservation.writer).Perm (S.pending.eraseIdx i) := by
  obtain ⟨r, hr, rfl⟩ := h.row hi
  have hperm := perm_of_keys_erase (r := r) hk hsub h.nodup_keys hr
  obtain ⟨hlt, hw⟩ := List.getElem?_eq_some_iff.mp hi
  have h1 : (r.writer :: p'.map Reservation.writer).Perm S.pending :=
    (hperm.map Reservation.writer).symm.trans h.pending
  have h2 : (r.writer :: S.pending.eraseIdx i).Perm S.pending :=
    hw ▸ getElem_cons_eraseIdx_perm hlt
  exact (perm_cons _).mp (h1.trans h2.symm)

variable {lock' : RangeLock} {l' p' : List Reservation}

section

variable (h : Queues S l p) {result : AcquireResult}

include h

lemma Queues.leave {guards : List RangeGuard} {pending : List PendingWriter}
    (hx : Excludes ⟨lock', guards, pending⟩ l' p') (hp : (p'.map Reservation.writer).Perm pending)
    (hsub : pending.Sublist S.pending) (hn : S.lock.state.nextId ≤ lock'.state.nextId) :
    Queues ⟨lock', guards, pending⟩ l' p' :=
  ⟨hx, hp, h.order.sublist hsub, fun w hw => (h.fresh w (hsub.subset hw)).trans_le hn,
    fun w hw => h.positive w (hsub.subset hw), h.next.trans_le hn⟩

lemma Queues.afterAcquire (hid : IdsLeft S) {range : UserRange} {mode : LockMode}
    (hout : Acquires S.lock l p range mode lock' result l' p') :
    Queues (S.afterAcquire lock' result) l' p' := by
  have hx := h.toExcludes.afterAcquire hout
  have hafter := idAfter_eq S.lock.state.nextId (by omega)
  have hnil : S.pending ++ (S.lock.blocked none).pendingWriter.toList = S.pending :=
    append_nil _
  cases hout with
  | reserves _ _ hdone =>
    cases hdone with
    | granted _ _ _ next => exact h.leave hx h.pending (refl _) (by omega)
    | full _ _ next => exact h.leave hx (hnil.symm ▸ h.pending) (by rw [hnil]) (by omega)
  | blocked => exact h.leave hx (hnil.symm ▸ h.pending) (by rw [hnil]) le_rfl
  | queueFull _ next => exact h.leave hx (hnil.symm ▸ h.pending) (by rw [hnil]) (by omega)
  | queued _ perm next =>
    -- the new writer has the largest id and stands last
    refine ⟨hx, ?_, ?_, ?_, ?_, ?_⟩
    · exact (perm.map _).trans ((h.pending.cons _).trans (perm_append_singleton ..).symm)
    · refine pairwise_append.mpr ⟨h.order, pairwise_singleton .., fun w hw w' hw' => ?_⟩
      obtain rfl := mem_singleton.mp hw'
      exact h.fresh w hw
    · intro w hw
      show w.id < lock'.state.nextId
      rcases mem_append.mp hw with hw | hw
      · have := h.fresh w hw
        omega
      obtain rfl := mem_singleton.mp hw
      show S.lock.state.nextId < _
      omega
    · intro w hw
      rcases mem_append.mp hw with hw | hw
      · exact h.positive w hw
      obtain rfl := mem_singleton.mp hw
      exact h.next
    · show 0 < lock'.state.nextId
      omega

lemma Queues.afterTry (hid : IdsLeft S) (hi : S.pending[i]? = some w)
    (hout : TriesAcquire S.lock l p w lock' result l' p') :
    Queues (S.afterTry i lock' result) l' p' := by
  have hx := h.toExcludes.afterTry i hout
  cases hout with
  | blocked =>
    have hset : S.pending.set i w = S.pending := by
      obtain ⟨hlt, rfl⟩ := List.getElem?_eq_some_iff.mp hi
      exact List.set_getElem_self hlt
    exact h.leave hx (by rw [hset]; exact h.pending) (by rw [hset]) le_rfl
  | reserves _ _ keys subset next hdone =>
    have hp := h.erased hi keys subset
    have hafter := idAfter_eq S.lock.state.nextId (by omega)
    cases hdone with
    | granted _ _ _ next' | full _ _ next' =>
      exact h.leave hx hp (eraseIdx_sublist ..) (by rw [next', next]; omega)

/-- **One call** keeps the queue, as long as ids do not wrap around. -/
lemma Queues.step (hid : IdsLeft S) (op : LockOp) :
    ∃ S' o, S.step op = some (S', o) ∧ ∃ l' p', Queues S' l' p' := by
  cases op with
  | acquire range mode =>
    obtain ⟨lock', result, l', p', e, hout⟩ := acquireStepRich_ok h.rows range mode
    exact ⟨_, (), by simp [RangeLockSystem.step, e], l', p', h.afterAcquire hid hout⟩
  | acquirePair a b =>
    obtain ⟨lock', result, l', e, hout⟩ := acquirePairStepRich_ok h.rows h.disjoint a b
    refine ⟨S.afterPair lock' result, (), by simp [RangeLockSystem.step, e], l', p, ?_⟩
    have hx := h.toExcludes.afterPair hout
    have hafter := idAfter_eq S.lock.state.nextId (by omega)
    have hafter' := idAfter_eq (S.lock.state.nextId + 1) (by omega)
    cases hout with
    | blocked => exact h.leave hx h.pending (refl _) le_rfl
    | granted _ _ _ _ _ next | full _ _ next =>
      exact h.leave hx h.pending (refl _) (by rw [next, hafter, hafter']; omega)
  | tryAcquire i =>
    rcases hi : S.pending[i]? with _ | w
    · exact ⟨S, (), by simp [RangeLockSystem.step, hi], l, p, h⟩
    obtain ⟨lock', result, l', p', e, hout⟩ := tryAcquire_ok h.rows w
    exact ⟨_, (), by simp [RangeLockSystem.step, hi, e], l', p', h.afterTry hid hi hout⟩
  | cancel i notify =>
    rcases hi : S.pending[i]? with _ | w
    · exact ⟨S, (), by simp [RangeLockSystem.step, hi], l, p, h⟩
    obtain ⟨lock', p', e, hx, hk⟩ := h.toExcludes.cancel hi notify
    obtain ⟨hk, hsub, hn⟩ := hk (h.positive w (mem_of_getElem? hi)).ne'
    exact ⟨_, (), e, l, p', h.leave hx (h.erased hi hk hsub) (eraseIdx_sublist ..) hn.ge⟩
  | dropGuard i =>
    rcases hi : S.guards[i]? with _ | g
    · exact ⟨S, (), by simp [RangeLockSystem.step, hi], l, p, h⟩
    obtain ⟨r, lock', l', -, e, -, hn, hx⟩ := h.toExcludes.dropGuard hi
    exact ⟨_, (), by simp [RangeLockSystem.step, hi, e], l', p,
      h.leave hx h.pending (refl _) hn.ge⟩

lemma Queues.run (ops : List LockOp)
    (hid : Runs.Guarded RangeLockSystem.step (fun S _ => IdsLeft S) S ops) :
    ∃ S' outs, run RangeLockSystem.step S ops = some (S', outs) ∧ ∃ l' p', Queues S' l' p' :=
  run_guarded (fun S => ∃ l p, Queues S l p) (fun _ op ⟨_, _, h⟩ hid => h.step hid op) ops
    ⟨l, p, h⟩ hid

end

/-! ### Grants and places -/

/-- The result of `try_acquire`: the range is granted, or the writer comes back with its row. -/
def KeepsPlace (lock : RangeLock) (w : PendingWriter) : AcquireResult → Prop
  | .acquired guard => guard.range = w.range
  | .wouldBlock b =>
    b.pendingWriter = some w ∧ ∃ r ∈ lock.state.pendingWriters.stored, r.writer = w

lemma Queues.free_of_pending {range : UserRange} (h : Queues S l p) (hp : Free p range) :
    ∀ w ∈ S.pending, ¬ w.range.overlaps range := by
  intro w hw
  obtain ⟨r, hr, rfl⟩ := mem_map.mp (h.pending.mem_iff.mpr hw)
  exact hp r hr

/-- A pending writer gets its range only if no earlier one is in the way. -/
lemma Queues.not_overtaken (h : Queues S l p) (hi : S.pending[i]? = some w) {g : RangeGuard}
    (hacq : S.lock.tryAcquire w = some (lock', .acquired g)) {j : ℕ} (hj : j < i)
    {w' : PendingWriter} (hw' : S.pending[j]? = some w') : ¬ w'.range.overlaps w.range := by
  obtain ⟨lock1, result, l', p', e, hout⟩ := tryAcquire_ok h.rows w
  rw [hacq] at e
  cases e
  cases hout with
  | reserves _ clear =>
    intro ho
    obtain ⟨r, hr, rfl⟩ := h.row hw'
    obtain ⟨_, hid, hge⟩ := clear r hr ho
    cases hid
    obtain ⟨hlti, hwi⟩ := List.getElem?_eq_some_iff.mp hi
    obtain ⟨hltj, hwj⟩ := List.getElem?_eq_some_iff.mp hw'
    have horder := List.pairwise_iff_getElem.mp h.order j i hltj hlti hj
    rw [hwi, hwj] at horder
    exact absurd horder (not_lt.mpr hge)

lemma Queues.keepsPlace_iff (h : Queues S l p) (hi : S.pending[i]? = some w) :
    ∃ lock' result, S.lock.tryAcquire w = some (lock', result) ∧
      (KeepsPlace lock' w result ↔ S.lock.state.writerBlocked w.range (some w.id) = some true ∨
        S.lock.state.active.stored.length < maxActiveRanges) := by
  obtain ⟨lock', result, l', p', e, hout⟩ := tryAcquire_ok h.rows w
  have hlen := h.rows.active.stored_perm.length_eq
  refine ⟨lock', result, e, ?_⟩
  cases hout with
  | blocked why =>
    rw [not_and_or] at why
    obtain ⟨hb, -⟩ | ⟨-, hnot⟩ := (h.rows.writerBlocked_ok w.range (some w.id)).cases
    · obtain ⟨r, hr, hrw⟩ := h.row hi
      exact iff_of_true ⟨rfl, r, h.rows.pending.stored_perm.mem_iff.mpr hr, hrw⟩ (.inl hb)
    · exact absurd why hnot
  | reserves free clear _ _ _ hdone =>
    cases hdone with
    | granted _ room => exact iff_of_true rfl (.inr (hlen ▸ room))
    | full _ taken =>
      refine iff_of_false (fun hk => (by cases hk.1)) ?_
      rintro (hb | hlt)
      · obtain ⟨-, hwhy⟩ | ⟨hb', -⟩ := (h.rows.writerBlocked_ok w.range (some w.id)).cases
        · rcases hwhy with hwhy | hwhy
          · exact hwhy free
          · exact hwhy clear
        · rw [hb] at hb'
          cases hb'
      · omega

/-- **Writer preference**: after every run in which ids have not wrapped around, the pending rows
are those of the pending writers in the order in which they queued, no range is granted that
overlaps a writer which queued before, and `try_acquire` grants the range or keeps the row exactly
when the writer is blocked or an active slot is free. -/
theorem pending_writers_keep_place_iff (ops : List LockOp)
    (hid : Runs.Guarded step (fun S _ => IdsLeft S) init ops) :
    ∃ S outs, Runs.run step init ops = some (S, outs) ∧
      (S.lock.state.pendingWriters.stored.map Reservation.writer).Perm S.pending ∧
      (∀ range mode lock' g, S.lock.acquireStepRich range mode = some (lock', .acquired g) →
        ∀ w ∈ S.pending, ¬ w.range.overlaps range) ∧
      (∀ a b lock' f g, S.lock.acquirePairStepRich a b = some (lock', .acquired f g) →
        ∀ w ∈ S.pending, ¬ w.range.overlaps a.1 ∧ ¬ w.range.overlaps b.1) ∧
      (∀ (i : ℕ) (w : PendingWriter), S.pending[i]? = some w →
        (∀ lock' g, S.lock.tryAcquire w = some (lock', .acquired g) → ∀ j < i, ∀ w',
          S.pending[j]? = some w' → ¬ w'.range.overlaps w.range) ∧
        ∃ lock' result, S.lock.tryAcquire w = some (lock', result) ∧
          (KeepsPlace lock' w result ↔ S.lock.state.writerBlocked w.range (some w.id) = some true ∨
              S.lock.state.active.stored.length < maxActiveRanges)) := by
  obtain ⟨S, outs, hrun, l, p, h⟩ := queues_init.run ops hid
  refine ⟨S, outs, hrun, (h.rows.pending.stored_perm.map _).trans h.pending,
    fun range mode lock' g hacq => ?_, fun a b lock' f g hacq => ?_, fun i w hi =>
    ⟨fun lock' g hacq j hj w' hw' => h.not_overtaken hi hacq hj hw', h.keepsPlace_iff hi⟩⟩
  · obtain ⟨lock1, result, l', p', e, hout⟩ := acquireStepRich_ok h.rows range mode
    rw [hacq] at e
    cases e
    cases hout with
    | reserves _ clear => exact h.free_of_pending clear
  obtain ⟨lock1, result, l', e, hout⟩ := acquirePairStepRich_ok h.rows h.disjoint a b
  rw [hacq] at e
  cases e
  cases hout with
  | granted _ clear =>
    exact fun w hw => ⟨h.free_of_pending clear.1 w hw, h.free_of_pending clear.2 w hw⟩

def page (k : Fin 17) : UserRange :=
  .pages k 1 ⟨Nat.one_pos, by have := k.isLt; unfold userPageSize; omega⟩

/-- A writer queued behind another one keeps its place. -/
theorem pending_writers_keep_place_behind_writer :
    let ops := [LockOp.acquire (page 0) .exclusiveWriter, .acquire (page 0) .exclusiveWriter]
    ∃ S outs, run step init ops = some (S, outs) ∧ S.pending = [⟨2, page 0⟩] ∧
      ∃ lock' result, S.lock.tryAcquire ⟨2, page 0⟩ = some (lock', result) ∧
        KeepsPlace lock' ⟨2, page 0⟩ result := by
  intro ops
  obtain ⟨S, outs, hrun, -, -, -, hplace⟩ :=
    pending_writers_keep_place_iff ops (by decide +kernel)
  have hstate : (run step init ops).map (fun r =>
      (r.1.pending, r.1.lock.state.writerBlocked (page 0) (some 2))) =
      some ([⟨2, page 0⟩], some true) := by decide +kernel
  rw [hrun, Option.map_some, Option.some.injEq, Prod.mk.injEq] at hstate
  obtain ⟨hpending, hblocked⟩ := hstate
  obtain ⟨-, lock', result, e, hiff⟩ := hplace 0 ⟨2, page 0⟩ (by rw [hpending]; rfl)
  exact ⟨S, outs, hrun, hpending, lock', result, e, hiff.mpr (.inl hblocked)⟩

def fillAfterQueueing : List LockOp :=
  [.acquire (page 0) .exclusiveWriter, .acquire (page 0) .exclusiveWriter, .dropGuard 0] ++
    (List.finRange 16).map fun k => .acquire (page k.succ) .materializer

/-- With all active slots taken, a pending writer whose range is free gets neither the range nor its
row back. -/
theorem pending_writer_loses_place :
    (do
      let (S, _) ← Runs.run step init fillAfterQueueing
      let w ← S.pending[0]?
      let (lock', result) ← S.lock.tryAcquire w
      return (S.lock.state.pendingWriters.stored.map Reservation.writer, w, result,
        lock'.state.pendingWriters.stored)) =
      some ([⟨2, page 0⟩], ⟨2, page 0⟩, .wouldBlock ⟨none, 1⟩, []) := by
  decide +kernel

/-- **The oldest writer goes ahead**: `try_acquire` grants the first pending writer its range once
no guard overlaps it and an active slot is free. -/
theorem oldest_writer_acquires (ops : List LockOp)
    (hid : Runs.Guarded step (fun S _ => IdsLeft S) init ops) :
    ∃ S outs, Runs.run step init ops = some (S, outs) ∧ ∀ w rest, S.pending = w :: rest →
      (∀ g ∈ S.guards, ¬ g.range.overlaps w.range) → S.guards.length < maxActiveRanges →
      ∃ lock' g, S.lock.tryAcquire w = some (lock', .acquired g) ∧ g.range = w.range := by
  obtain ⟨S, outs, hrun, l, p, h⟩ := queues_init.run ops hid
  refine ⟨S, outs, hrun, fun w rest hw hg hroom => ?_⟩
  have hfree : Free l w.range := fun r hr => hg _ (h.guards.mem_iff.mp (mem_map_of_mem hr))
  have hclear : Clear p w.range (some w.id) := by
    intro r hr _
    have hmem := h.pending.mem_iff.mp (mem_map_of_mem hr)
    have horder := h.order
    rw [hw] at hmem horder
    rcases mem_cons.mp hmem with rfl | hmem
    · exact ⟨_, rfl, le_rfl⟩
    · exact ⟨_, rfl, (rel_of_pairwise_cons horder hmem).le⟩
  have hlen := h.guards.length_eq
  rw [length_map] at hlen
  obtain ⟨lock', result, l', p', e, hout⟩ := tryAcquire_ok h.rows w
  cases hout with
  | blocked why => exact absurd ⟨hfree, hclear⟩ why
  | reserves _ _ _ _ _ hdone =>
    cases hdone with
    | granted => exact ⟨lock', _, e, rfl⟩
    | full _ taken => omega

theorem oldest_writer_acquires_released : ∃ (S : RangeLockSystem) (w : PendingWriter),
    S.pending = [w] ∧ ∃ lock' g, S.lock.tryAcquire w = some (lock', .acquired g) := by
  let ops := fillAfterQueueing.take 3
  obtain ⟨S, outs, hrun, h⟩ := oldest_writer_acquires ops (by decide +kernel)
  have hstate : (run step init ops).map (fun r => (r.1.pending, r.1.guards)) =
      some ([⟨2, page 0⟩], []) := by decide +kernel
  simp only [hrun, Option.map_some, Option.some.injEq, Prod.mk.injEq] at hstate
  obtain ⟨hpending, hguards⟩ := hstate
  obtain ⟨lock', g, e, -⟩ := h _ _ hpending (by simp [hguards]) (by rw [hguards]; decide)
  exact ⟨S, _, hpending, lock', g, e⟩

end RangeLockSystem

end TxKernel.Vm
