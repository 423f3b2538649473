import TxKernel.Library.Runs
import TxKernel.Vm.RangeLock.Calls

/-!
Mutual exclusion of the range lock, over every interleaving of calls. The active rows never overlap,
so a key names one row and a release takes out its own, even when ids have wrapped around.
-/

namespace TxKernel.Vm

open ReservationIntervalTree List RangeLock

def Reservation.guard (r : Reservation) : RangeGuard := ⟨r.id, r.range⟩

namespace RangeLockSystem

variable {S S' : RangeLockSystem} {l p : List Reservation}

/-- The tables hold `l` and `p`, no two rows of `l` overlap, and the guards are those of `l`. -/
structure Excludes (S : RangeLockSystem) (l p : List Reservation) : Prop where
  rows : LockRows S.lock.state l p
  disjoint : Disjointed l
  guards : (l.map Reservation.guard).Perm S.guards

lemma excludes_init : Excludes init [] [] :=
  ⟨⟨hasRows_new _, hasRows_new _, rfl, rfl⟩, List.Pairwise.nil, .refl _⟩

variable {lock' : RangeLock}

section

variable (h : Excludes S l p) {l' p' : List Reservation} {result : AcquireResult}

include h

lemma Excludes.granted {r : Reservation} (hfree : Free l r.range)
    (rows : LockRows lock'.state l' p') (perm : l'.Perm (r :: l)) (pending : List PendingWriter) :
    Excludes ⟨lock', S.guards ++ [r.guard], pending⟩ l' p' :=
  ⟨rows, (h.disjoint.cons hfree).perm perm.symm,
    (perm.map _).trans ((h.guards.cons _).trans (perm_append_singleton ..).symm)⟩

lemma Excludes.afterAcquire {range : UserRange} {mode : LockMode}
    (hout : Acquires S.lock l p range mode lock' result l' p') :
    Excludes (S.afterAcquire lock' result) l' p' := by
  cases hout with
  | reserves hfree _ hdone =>
    cases hdone with
    | granted rows _ perm _ => exact h.granted (r := ⟨_, range, mode⟩) hfree rows perm S.pending
    | full rows => exact ⟨rows, h.disjoint, h.guards⟩
  | blocked => exact ⟨h.rows, h.disjoint, h.guards⟩
  | queued rows | queueFull rows => exact ⟨rows, h.disjoint, h.guards⟩

lemma Excludes.afterPair {result : AcquirePairResult} {a b : UserRange × LockMode}
    (hout : AcquiresPair S.lock l p a b lock' result l') :
    Excludes (S.afterPair lock' result) l' p := by
  cases hout with
  | blocked => exact ⟨h.rows, h.disjoint, h.guards⟩
  | granted hfree _ apart rows perm =>
    refine ⟨rows, ?_, ?_⟩
    · refine ((h.disjoint.cons (r := ⟨_, a.1, a.2⟩) hfree.1).cons (r := ⟨_, b.1, b.2⟩) ?_).perm
        perm.symm
      exact forall_mem_cons.mpr ⟨apart, hfree.2⟩
    · refine (perm.map _).trans ((List.Perm.swap ..).trans (((h.guards.cons _).cons _).trans ?_))
      exact (@perm_append_comm _ [_, _] _).trans (.refl _)
  | full rows perm =>
    exact ⟨rows, h.disjoint.perm perm.symm, (perm.map _).trans h.guards⟩

lemma Excludes.afterTry {w : PendingWriter} (i : ℕ)
    (hout : TriesAcquire S.lock l p w lock' result l' p') :
    Excludes (S.afterTry i lock' result) l' p' := by
  cases hout with
  | blocked => exact ⟨h.rows, h.disjoint, h.guards⟩
  | reserves hfree _ _ _ _ hdone =>
    cases hdone with
    | granted rows _ perm _ => exact h.granted (r := ⟨_, w.range, _⟩) hfree rows perm _
    | full rows => exact ⟨rows, h.disjoint, h.guards⟩

lemma Excludes.cancel {i : ℕ} {w : PendingWriter} (hi : S.pending[i]? = some w) (notify : Bool) :
    ∃ lock' p', S.step (.cancel i notify) = some (⟨lock', S.guards, S.pending.eraseIdx i⟩, ()) ∧
      Excludes ⟨lock', S.guards, S.pending.eraseIdx i⟩ l p' ∧
      (w.id ≠ 0 → (p'.map Reservation.key).Perm
          ((p.map Reservation.key).erase (keyOf w.range w.id)) ∧ p' ⊆ p ∧
        lock'.state.nextId = S.lock.state.nextId) := by
  obtain ⟨s', p', e, hrows, hk⟩ := h.rows.releasePendingWriter_ok w.id w.range
  by_cases hid : w.id = 0
  · refine ⟨S.lock, p, ?_, ⟨h.rows, h.disjoint, h.guards⟩, absurd hid⟩
    cases notify <;>
      simp [RangeLockSystem.step, hi, releasePendingWriter, cancelWithoutNotify, hid]
  refine ⟨⟨s', if notify then (S.lock.releaseGeneration + 1) % 2 ^ 64 else
    S.lock.releaseGeneration⟩, p', ?_, ⟨hrows, h.disjoint, h.guards⟩, fun _ => hk⟩
  cases notify <;>
    simp [RangeLockSystem.step, hi, cancelWithoutNotify, releasePendingWriter, hid, e]

lemma Excludes.dropGuard {i : ℕ} {g : RangeGuard} (hi : S.guards[i]? = some g) :
    ∃ r lock' l', r.guard = g ∧ S.lock.releaseActive g = some lock' ∧ l.Perm (r :: l') ∧
      lock'.state.nextId = S.lock.state.nextId ∧
      Excludes ⟨lock', S.guards.eraseIdx i, S.pending⟩ l' p := by
  obtain ⟨hlt, hg⟩ := List.getElem?_eq_some_iff.mp hi
  obtain ⟨r, hr, hrg⟩ := List.mem_map.mp
    (h.guards.mem_iff.mpr (hg ▸ List.getElem_mem hlt : g ∈ S.guards))
  obtain ⟨s', l', e, hrows, hperm, hn⟩ := h.rows.releaseActive_ok h.disjoint hr
  refine ⟨r, ⟨s', (S.lock.releaseGeneration + 1) % 2 ^ 64⟩, l', hrg, ?_, hperm, hn, hrows,
    (pairwise_cons.mp (h.disjoint.perm hperm)).2, ?_⟩
  · subst hrg
    simp [releaseActive, Reservation.guard, e]
  have h1 : (g :: l'.map Reservation.guard).Perm S.guards :=
    hrg ▸ (hperm.map Reservation.guard).symm.trans h.guards
  have h2 : (g :: S.guards.eraseIdx i).Perm S.guards :=
    hg ▸ getElem_cons_eraseIdx_perm hlt
  exact (perm_cons g).mp (h1.trans h2.symm)

lemma Excludes.step (op : LockOp) :
    ∃ S' o, S.step op = some (S', o) ∧ ∃ l' p', Excludes S' l' p' := by
  cases op with
  | acquire range mode =>
    obtain ⟨lock', result, l', p', e, hout⟩ := acquireStepRich_ok h.rows range mode
    exact ⟨_, (), by simp [RangeLockSystem.step, e], l', p', h.afterAcquire hout⟩
  | acquirePair a b =>
    obtain ⟨lock', result, l', e, hout⟩ := acquirePairStepRich_ok h.rows h.disjoint a b
    exact ⟨_, (), by simp [RangeLockSystem.step, e], l', p, h.afterPair hout⟩
  | tryAcquire i =>
    rcases hi : S.pending[i]? with _ | w
    · exact ⟨S, (), by simp [RangeLockSystem.step, hi], l, p, h⟩
    obtain ⟨lock', result, l', p', e, hout⟩ := tryAcquire_ok h.rows w
    exact ⟨_, (), by simp [RangeLockSystem.step, hi, e], l', p', h.afterTry i hout⟩
  | cancel i notify =>
    rcases hi : S.pending[i]? with _ | w
    · exact ⟨S, (), by simp [RangeLockSystem.step, hi], l, p, h⟩
    obtain ⟨lock', p', e, h', -⟩ := h.cancel hi notify
    exact ⟨_, (), e, l, p', h'⟩
  | dropGuard i =>
    rcases hi : S.guards[i]? with _ | g
    · exact ⟨S, (), by simp [RangeLockSystem.step, hi], l, p, h⟩
    obtain ⟨r, lock', l', -, e, -, -, h'⟩ := h.dropGuard hi
    exact ⟨_, (), by simp [RangeLockSystem.step, hi, e], l', p, h'⟩

lemma Excludes.run (ops : List LockOp) :
    ∃ S' outs, Runs.run RangeLockSystem.step S ops = some (S', outs) ∧
      ∃ l' p', Excludes S' l' p' :=
  Runs.run_total (fun S => ∃ l p, Excludes S l p) (fun _ op ⟨_, _, h⟩ => h.step op) ops ⟨l, p, h⟩

end

lemma anyOverlapWhere_stored {t : ReservationIntervalTree} (h : t.HasRows l) (range : UserRange)
    (predicate : Reservation → Bool) :
    t.anyOverlapWhere range predicate =
      some (decide (∃ r ∈ t.stored, r.range.overlaps range ∧ predicate r)) := by
  rw [h.anyOverlapWhere_ok, Option.some.injEq, Bool.eq_iff_iff, any_eq_true, decide_eq_true_eq]
  simp [h.stored_perm.mem_iff]

/-- **Mutual exclusion**: every run of calls goes through, and after it no two active reservations
overlap, the guards outstanding are theirs, dropping a guard takes out its reservation and no other,
and the search over either table is exact. -/
theorem active_reservations_exclusive (ops : List LockOp) :
    ∃ S outs, Runs.run step init ops = some (S, outs) ∧
      S.lock.state.active.stored.Pairwise (fun r r' => ¬ r.range.overlaps r'.range) ∧
      (S.lock.state.active.stored.map Reservation.guard).Perm S.guards ∧
      (∀ i g, S.guards[i]? = some g → ∃ S' r, S.step (.dropGuard i) = some (S', ()) ∧ r.guard = g ∧
        S.lock.state.active.stored.Perm (r :: S'.lock.state.active.stored)) ∧
      ∀ t ∈ [S.lock.state.active, S.lock.state.pendingWriters], ∀ range predicate,
        t.anyOverlapWhere range predicate =
          some (decide (∃ r ∈ t.stored, r.range.overlaps range ∧ predicate r)) := by
  obtain ⟨S, outs, hrun, l, p, h⟩ := excludes_init.run ops
  have hstored := h.rows.active.stored_perm
  refine ⟨S, outs, hrun, h.disjoint.perm hstored.symm, (hstored.map _).trans h.guards,
    fun i g hi => ?_, ?_⟩
  · obtain ⟨r, lock', l', hr, e, hperm, -, h'⟩ := h.dropGuard hi
    refine ⟨⟨lock', S.guards.eraseIdx i, S.pending⟩, r, by simp [RangeLockSystem.step, hi, e], hr,
      ?_⟩
    exact hstored.trans (hperm.trans (h'.rows.active.stored_perm.symm.cons r))
  · simp only [mem_cons, not_mem_nil, or_false, forall_eq_or_imp, forall_eq]
    exact ⟨anyOverlapWhere_stored h.rows.active, anyOverlapWhere_stored h.rows.pending⟩

end RangeLockSystem

end TxKernel.Vm
