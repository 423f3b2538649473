import TxKernel.Ext4.Journal.Lifecycle
import TxKernel.Ext4.Journal.StoredRecord
import TxKernel.Library.Runs

/-!
When a journal record may be written again. A commit graph that was handed out may have reached the
disk whatever its completion says, so its record must stay until its checkpoint is done.
-/

namespace TxKernel.Ext4

open Bytes MutationHandle JournalRing JournalFsyncSource Option

/-- The journal of a mount, and the reservation for which a transaction is being staged. -/
structure JournalMutationRuntime where
  journal : Journal
  pending : Option JournalRingReservation

inductive RuntimeCall
  | layoutFor (metadataBlocks revokePages : ℕ)
  | releaseReservation
  | beginTransaction (transaction : JournalTransactionPlan)
  | callback (call : JournalCall) (isCallback : call.IsCallback)

inductive RecordEvent
  | reserved (reservation : JournalRingReservation)
  | commitHandedOut (reservation : JournalRingReservation)
  | checkpointed (reservation : JournalRingReservation)
  deriving DecidableEq

namespace JournalMutationRuntime

def withRing (ring : JournalRing) : JournalMutationRuntime := ⟨⟨ring, .new, false⟩, none⟩

def extent (s : JournalMutationRuntime) : Option JournalRingReservation :=
  s.journal.source.mutation.bind (·.journalExtent)

def eventOf (s : JournalMutationRuntime) : JournalCall → JournalAnswer → Option RecordEvent
  | .planFsync _, .plan (.submitGraph _) => s.extent.map .commitHandedOut
  | .completeCheckpoint (.ok ()), .unit => s.extent.map .checkpointed
  | _, _ => none

def step (s : JournalMutationRuntime) : RuntimeCall → JournalMutationRuntime × Option RecordEvent
  | .layoutFor m r =>
    match s.journal.ring.reserveWithRevokePages m r with
    | .ok (reservation, ring) =>
      (⟨{ s.journal with ring }, some reservation⟩, some (.reserved reservation))
    | .error _ => (s, none)
  | .releaseReservation =>
    match s.pending with
    | none => (s, none)
    | some reservation => (⟨s.journal.abandon reservation, none⟩, none)
  | .beginTransaction t =>
    match s.pending with
    | none => (s, none)
    | some reservation =>
      match s.journal.begin t (some reservation) with
      | (journal, .result (.ok _)) => (⟨journal, none⟩, none)
      -- the source is busy, the reservation goes back
      | (journal, _) => (⟨journal.abandon reservation, none⟩, none)
  | .callback c _ =>
    let (journal, answer) := s.journal.step c
    (⟨journal, s.pending⟩, s.eventOf c answer)

def trace (s : JournalMutationRuntime) (calls : List RuntimeCall) : List RecordEvent :=
  (Runs.runSpec step s calls).2.reduceOption

def recordBlocks (r : JournalRingReservation) : List LbaRange :=
  r.layout.records.descriptor :: r.layout.records.metadata ++ r.layout.records.revokes
    ++ [r.layout.records.commit]

/-- Two records that a block of one could complete the other with. -/
def Clash (r r' : JournalRingReservation) : Prop :=
  r.layout.sequence = r'.layout.sequence ∧ ∃ lba ∈ recordBlocks r, lba ∈ recordBlocks r'

instance (r r' : JournalRingReservation) : Decidable (Clash r r') := by
  unfold Clash
  infer_instance

/-- A record whose commit was handed out clashes with a later one only if its checkpoint is done
in between. -/
def NoReuse (events : List RecordEvent) : Prop :=
  ∀ before between after r r',
    events = before ++ .commitHandedOut r :: between ++ .reserved r' :: after → Clash r r' →
    .checkpointed r ∈ between

def ReportsCommitError (s : JournalMutationRuntime) : RuntimeCall → Prop
  | .callback (.completeFsync c) _ => c.op = .fsync ∧ c.result ≠ .done
      ∧ ∃ h, s.journal.source.mutation = some h ∧ h.phase = .commitPending
        ∧ h.commitRequest = some c.id
  | _ => False

/-! ### The invariant -/

/-- What every call of the runtime keeps: a reservation that somebody holds is the active one of the
ring, and only one of the runtime and the mutation holds it. -/
structure Inv (s : JournalMutationRuntime) : Prop where
  pending : ∀ r, s.pending = some r → s.journal.ring.state.active = some r
  held : ∀ h r, s.journal.source.mutation = some h → h.journalExtent = some r →
    s.journal.ring.state.active = some r ∧ s.pending = none
  coherent : s.journal.Coherent

def InDoubt : MutationPhase → Prop
  | .commitPending | .committedNeedsSettlement | .checkpointPending | .recoveryOnly => True
  | _ => False

/-- The mutation of this record has its commit handed out and no checkpoint yet. -/
def Open (s : JournalMutationRuntime) (r : JournalRingReservation) : Prop :=
  ∃ h, s.journal.source.mutation = some h ∧ h.journalExtent = some r ∧ InDoubt h.phase

structure Safe (s s' : JournalMutationRuntime) (e : Option RecordEvent) : Prop where
  inv : Inv s'
  stays : ∀ r, Open s r → (Open s' r ∧ ∀ r', e ≠ some (.reserved r')) ∨ e = some (.checkpointed r)
  opens : ∀ r, e = some (.commitHandedOut r) → Open s' r

variable {s : JournalMutationRuntime} {calls : List RuntimeCall}

section

variable (h : Inv s) {j' : Journal} {g : MutationHandle}

include h

lemma safe_self : Safe s s none := ⟨h, fun _ ho => .inl ⟨ho, by simp⟩, by simp⟩

lemma safe_layoutFor (m r : ℕ) :
    Safe s (s.step (.layoutFor m r)).1 (s.step (.layoutFor m r)).2 := by
  rw [step]
  rcases hr : s.journal.ring.reserveWithRevokePages m r with e | ⟨reservation, ring⟩
  · exact safe_self h
  -- the ring was idle, so nobody holds a reservation
  have hres := reserve_ok hr
  have hfree : ∀ h' r', s.journal.source.mutation = some h' → h'.journalExtent ≠ some r' := by
    intro h' r' hs he
    simpa [hres.idle] using (h.held h' r' hs he).1
  refine ⟨⟨?_, ?_, ⟨h.coherent.writing, h.coherent.submitted, h.coherent.settling⟩⟩, ?_, by simp⟩
  · simp [hres.ring]
  · exact fun h' r' hs he => absurd he (hfree h' r' hs)
  rintro r' ⟨h', hs, he, -⟩
  exact absurd he (hfree h' r' hs)

lemma safe_abandon {r : JournalRingReservation} (hp : s.pending = some r) :
    Safe s ⟨s.journal.abandon r, none⟩ none := by
  obtain ⟨ring, hc⟩ := exists_complete (h.pending r hp) false
  have hfree : ∀ h' r', s.journal.source.mutation = some h' → h'.journalExtent ≠ some r' := by
    intro h' r' hs he
    simpa [hp] using (h.held h' r' hs he).2
  simp only [Journal.abandon, hc]
  refine ⟨⟨by simp, fun h' r' hs he => absurd he (hfree h' r' hs),
    ⟨h.coherent.writing, h.coherent.submitted, h.coherent.settling⟩⟩, ?_, by simp⟩
  rintro r' ⟨h', hs, he, -⟩
  exact absurd he (hfree h' r' hs)

lemma safe_releaseReservation :
    Safe s (s.step .releaseReservation).1 (s.step .releaseReservation).2 := by
  rw [step]
  rcases hp : s.pending with _ | r
  · exact safe_self h
  · exact safe_abandon h hp

lemma safe_beginTransaction (t : JournalTransactionPlan) :
    Safe s (s.step (.beginTransaction t)).1 (s.step (.beginTransaction t)).2 := by
  rw [step]
  rcases hp : s.pending with _ | r
  · exact safe_self h
  rcases hs : s.journal.source.mutation with _ | g
  · simp only [Journal.begin, hs, isSome_none, Bool.false_eq_true, if_false]
    refine ⟨⟨by simp, ?_, ?_, ?_, ?_⟩, ?_, by simp⟩
    · rintro h' r' ⟨⟩ ⟨⟩
      exact ⟨h.pending r hp, rfl⟩
    · rintro h' ⟨⟩
      simp [admitMutation]
    · intro hsub
      obtain ⟨h', hs', -⟩ := h.coherent.submitted hsub
      simp [hs] at hs'
    · intro hset
      obtain ⟨h', hs', -⟩ := h.coherent.settling hset
      simp [hs] at hs'
    · rintro r' ⟨h', hs', -⟩
      simp [hs] at hs'
  · simp only [Journal.begin, hs, isSome_some, if_true]
    exact safe_abandon h hp

lemma safe_of_ring {e : Option RecordEvent} {g' : MutationHandle} (hj : j'.Coherent)
    (hs : s.journal.source.mutation = some g) (hs' : j'.source.mutation = some g')
    (hring : j'.ring = s.journal.ring) (hextent : g'.journalExtent = g.journalExtent)
    (hkeep : InDoubt g.phase → InDoubt g'.phase ∨ e = g.journalExtent.map .checkpointed)
    (hreserved : ∀ r, e ≠ some (.reserved r))
    (hopens : ∀ r, e = some (.commitHandedOut r) → g.journalExtent = some r ∧ InDoubt g'.phase) :
    Safe s ⟨j', s.pending⟩ e := by
  refine ⟨⟨by simpa [hring] using h.pending, ?_, hj⟩, ?_, ?_⟩
  · intro h' r hh he
    obtain rfl : g' = h' := by simpa [hs'] using hh
    simpa [hring] using h.held g r hs (hextent ▸ he)
  · rintro r ⟨h', hh, he, hdoubt⟩
    obtain rfl : g = h' := by simpa [hs] using hh
    rcases hkeep hdoubt with hd | hd
    · exact .inl ⟨⟨g', hs', hextent.trans he, hd⟩, hreserved⟩
    · exact .inr (by rw [hd, he]; rfl)
  · intro r he
    obtain ⟨hr, hd⟩ := hopens r he
    exact ⟨g', hs', hextent.trans hr, hd⟩

lemma safe_of_drop (hj : j'.Coherent) (hs : s.journal.source.mutation = some g)
    (hs' : j'.source.mutation = none) (hring : g.journalExtent = none → j'.ring = s.journal.ring)
    (hphase : ¬ InDoubt g.phase) :
    Safe s ⟨j', s.pending⟩ none := by
  refine ⟨⟨?_, by simp [hs'], hj⟩, ?_, by simp⟩
  · intro r hp
    rcases he : g.journalExtent with _ | r'
    · simpa [hring he] using h.pending r hp
    have := (h.held g r' hs he).2
    simp_all
  · rintro r ⟨h', hh, -, hdoubt⟩
    obtain rfl : g = h' := by simpa [hs] using hh
    exact absurd hdoubt hphase

end

lemma rollbackPrecommit_of_none {g : MutationHandle} (ring : JournalRing)
    (h : g.journalExtent = none) : (g.rollbackPrecommit ring).2 = ring := by
  simp [rollbackPrecommit, h]

/-- **A callback** keeps a record in doubt unless it ends its checkpoint or reports that its commit
failed. -/
lemma safe_callback (h : Inv s) {c : JournalCall} (hc : c.IsCallback)
    (hok : ¬ ReportsCommitError s (.callback c hc)) :
    Safe s (s.step (.callback c hc)).1 (s.step (.callback c hc)).2 := by
  have he := Journal.effect_step h.coherent hc
  have hj' := Journal.coherent_effect h.coherent he
  rw [step]
  generalize s.journal.step c = p at he hj'
  obtain ⟨j', a⟩ := p
  simp only at he hj' ⊢
  cases he with
  | quiet hq hout =>
    have hcommit : ∀ r, s.eventOf c a ≠ some (.commitHandedOut r) := by
      unfold eventOf
      split
      · simp [handedOut] at hout
      · simp
      · simp
    refine ⟨h, fun r ho => .inl ⟨ho, fun r => ?_⟩, fun r he => absurd he (hcommit r)⟩
    unfold eventOf
    split <;> simp
  | data r hs hphase hreq =>
    exact safe_of_ring h hj' hs rfl rfl rfl (by rcases hphase with hp | hp <;> simp [hp, InDoubt])
      (by simp [eventOf]) (by simp [eventOf])
  | @dataDone g c hop hs hreq hres =>
    exact safe_of_ring h hj' hs rfl rfl rfl .inl (by simp [eventOf]) (by simp [eventOf])
  | @dataFailed g c e hop hs hreq hres =>
    have hphase := h.coherent.writing g hs (by simp [hreq])
    exact safe_of_drop h hj' hs rfl (fun he => rollbackPrecommit_of_none _ he)
      (by simp [hphase, InDoubt])
  | aborted e hs hphase hreq =>
    exact safe_of_drop h hj' hs rfl (fun he => rollbackPrecommit_of_none _ he)
      (by rcases hphase with hp | hp <;> simp [hp, InDoubt])
  | commit r hs hphase hreq =>
    refine safe_of_ring h hj' hs rfl rfl rfl (fun _ => .inl trivial) (by simp [eventOf])
      fun r' he => ?_
    exact ⟨by simpa [eventOf, extent, hs] using he, trivial⟩
  | @commitDone g c hop hs hphase hreq hres =>
    exact safe_of_ring h hj' hs rfl rfl rfl (fun _ => .inl trivial) (by simp [eventOf])
      (by simp [eventOf])
  | @commitFailed g c e hop hs hphase hreq hres =>
    exact absurd ⟨hop, by simp [hres], g, hs, hphase, hreq⟩ hok
  | commitUnknown e hs hphase hreq | checkpoint hs hphase | checkpointFailed e hs hphase =>
    exact safe_of_ring h hj' hs rfl rfl rfl (fun _ => .inl trivial) (by simp [eventOf])
      (by simp [eventOf])
  | checkpointDone hs hphase =>
    exact safe_of_ring h hj' hs rfl rfl rfl (fun _ => .inr (by simp [eventOf, extent, hs]))
      (by simp [eventOf]) (by simp [eventOf])
  | reclaimFailed hs hphase hset hc =>
    exact safe_of_ring h hj' hs hs rfl rfl .inl (by simp [eventOf]) (by simp [eventOf])
  | @reclaimed g g' ring' hs hphase hset hreclaim =>
    refine safe_of_drop h hj' hs rfl (fun he => ?_) (by simp [hphase, InDoubt])
    obtain ⟨-, hring⟩ | ⟨r, hr, -⟩ := completeTailReclaim_ok hreclaim
    · exact hring
    · simp [he] at hr

lemma safe_step (h : Inv s) {c : RuntimeCall} (hok : ¬ ReportsCommitError s c) :
    Safe s (s.step c).1 (s.step c).2 := by
  cases c with
  | layoutFor m r => exact safe_layoutFor h m r
  | releaseReservation => exact safe_releaseReservation h
  | beginTransaction t => exact safe_beginTransaction h t
  | callback c hc => exact safe_callback h hc hok

/-! ### Runs -/

def NoCommitError (s : JournalMutationRuntime) (calls : List RuntimeCall) : Prop :=
  Runs.Allowed step (fun s c => ¬ ReportsCommitError s c) s calls

lemma trace_nil (s : JournalMutationRuntime) : trace s [] = [] := rfl

lemma trace_cons (s : JournalMutationRuntime) (c : RuntimeCall) (cs : List RuntimeCall) :
    trace s (c :: cs) = (s.step c).2.toList ++ trace (s.step c).1 cs := by
  rw [trace, Runs.runSpec]
  rcases (s.step c).2 with _ | e <;> rfl

lemma checkpointed_before_reserved {r r' : JournalRingReservation}
    {between after : List RecordEvent} (h : Inv s) (hok : NoCommitError s calls) (ho : Open s r)
    (ht : trace s calls = between ++ .reserved r' :: after) : .checkpointed r ∈ between := by
  induction calls generalizing s between with
  | nil => cases between <;> simp [trace_nil] at ht
  | cons c cs ih =>
    have hsafe := safe_step h hok.1
    rw [trace_cons] at ht
    rcases he : (s.step c).2 with _ | e
    · obtain ⟨ho', -⟩ | hbad := hsafe.stays r ho
      · exact ih hsafe.inv hok.2 ho' (by simpa [he] using ht)
      · simp [he] at hbad
    rw [he] at ht
    rcases between with _ | ⟨b, bs⟩
    · -- the first event would be the reservation
      obtain ⟨rfl, -⟩ : e = .reserved r' ∧ trace (s.step c).1 cs = after := by simpa using ht
      obtain ⟨-, hne⟩ | hbad := hsafe.stays r ho
      · exact absurd he (hne r')
      · simp [he] at hbad
    obtain ⟨rfl, ht'⟩ : e = b ∧ trace (s.step c).1 cs = bs ++ .reserved r' :: after := by
      simpa using ht
    obtain ⟨ho', -⟩ | hdone := hsafe.stays r ho
    · exact List.mem_cons_of_mem _ (ih hsafe.inv hok.2 ho' ht')
    rw [he, some_inj] at hdone
    simp [hdone]

lemma noReuse_of_inv (h : Inv s) (hok : NoCommitError s calls) : NoReuse (trace s calls) := by
  intro before between after r r' ht _
  induction calls generalizing s before with
  | nil => cases before <;> simp [trace_nil] at ht
  | cons c cs ih =>
    have hsafe := safe_step h hok.1
    rw [trace_cons] at ht
    rcases he : (s.step c).2 with _ | e
    · exact ih hsafe.inv hok.2 before (by simpa [he] using ht)
    rw [he] at ht
    rcases before with _ | ⟨b, bs⟩
    · obtain ⟨rfl, ht'⟩ : e = .commitHandedOut r
          ∧ trace (s.step c).1 cs = between ++ .reserved r' :: after := by simpa using ht
      exact checkpointed_before_reserved hsafe.inv hok.2 (hsafe.opens r he) ht'
    · have ht' := (List.cons.inj ht).2
      exact ih hsafe.inv hok.2 bs ht'

/-- **No reuse**: in every run in which no commit in flight is reported to have failed, no record is
given out again before its checkpoint is done. -/
theorem noReuse_run (ring : JournalRing) (calls : List RuntimeCall)
    (hok : NoCommitError (withRing ring) calls) : NoReuse (trace (withRing ring) calls) :=
  noReuse_of_inv ⟨by simp [withRing], by simp [withRing, new],
    Journal.coherent_of_none rfl rfl rfl⟩ hok

/-! ### A commit that is reported to have failed -/

def smallTransaction : JournalTransactionPlan where
  sequence := 1
  dataWrites := []
  descriptor := .write ⟨808, 8⟩ (Buf.zero 4096)
  metadataWrites := [.write ⟨816, 8⟩ (Buf.zero 4096)]
  revokes := []
  commit := .write ⟨824, 8⟩ (Buf.zero 4096)
  checkpointWrites := [.write ⟨56, 8⟩ (Buf.zero 4096)]
  activation := some (.write ⟨800, 8⟩ smallSuperblockPage)
  clean := some (.write ⟨800, 8⟩ smallSuperblockPage)
  size := by decide

def failedCommit : List RuntimeCall :=
  [.layoutFor 1 0, .beginTransaction smallTransaction, .callback (.planFsync ⟨1, .fsync⟩) trivial,
    .callback (.completeFsync ⟨1, .fsync, .err .eio⟩) trivial, .layoutFor 1 0]

/-- The second reservation is the same record, although the commit of the first was handed out. -/
theorem failedCommit_reuses : ∃ r r', trace (withRing smallRing) failedCommit
      = [.reserved r, .commitHandedOut r, .reserved r']
    ∧ r.layout.sequence = r'.layout.sequence ∧ recordBlocks r = recordBlocks r'
    ∧ ¬ NoReuse (trace (withRing smallRing) failedCommit) := by
  obtain ⟨⟨r, ring1⟩, h1⟩ :=
    exists_ok (show (smallRing.reserveWithRevokePages 1 0).isOk = true by decide +kernel)
  obtain ⟨⟨r', ring3⟩, h3⟩ := exists_ok (show (({ smallRing with state := ⟨1, 1, 2, none⟩ } :
    JournalRing).reserveWithRevokePages 1 0).isOk = true by decide +kernel)
  have hr1 := reserve_ok h1
  have hr3 := reserve_ok h3
  have hactive : ring1.state.active = some r := by rw [hr1.ring]
  obtain ⟨ring2, h2⟩ := exists_complete hactive false
  obtain rfl : ring2 = { smallRing with state := ⟨1, 1, 2, none⟩ } := by
    rw [(complete_ok h2).2, hr1.ring]
    rfl
  have hgraph := smallTransaction.commitGraphAfterData_eq rfl
  have hnodata : smallTransaction.containsDataWrites = false := rfl
  have htrace : trace (withRing smallRing) failedCommit
      = [.reserved r, .commitHandedOut r, .reserved r'] := by
    simp [failedCommit, trace_cons, trace_nil, step, withRing, h1, Journal.begin, Journal.step,
      new, Journal.planFsync, admitMutation, prepareCommit,
      hgraph, Journal.withMutation, eventOf, extent, Journal.completeFsync,
      completeCommit, rollbackPrecommit, h2, Journal.settle, h3,
      hnodata]
  have hsequence : r.layout.sequence = r'.layout.sequence := by rw [hr1.sequence, hr3.sequence]; rfl
  have hblocks : recordBlocks r = recordBlocks r' := by
    rw [recordBlocks, recordBlocks, hr1.records, hr3.records]
    rfl
  refine ⟨r, r', htrace, hsequence, hblocks, fun hno => ?_⟩
  rw [htrace] at hno
  have hmem : r.layout.records.descriptor ∈ recordBlocks r := by simp [recordBlocks]
  have := hno [.reserved r] [] [] r r' rfl ⟨hsequence, _, hmem, hblocks ▸ hmem⟩
  simp at this

theorem noReuse_run_settled : NoReuse (trace (withRing smallRing)
    [.layoutFor 1 0, .beginTransaction smallTransaction, .callback (.planFsync ⟨1, .fsync⟩) trivial,
      .callback (.completeFsync ⟨1, .fsync, .done⟩) trivial, .callback .takeCheckpointGraph trivial,
      .callback (.completeCheckpoint (.ok ())) trivial, .callback .reclaimTail trivial,
      .layoutFor 1 0]) :=
  noReuse_run smallRing _ ⟨id, id, id, fun h => h.2.1 rfl, id, id, id, id, trivial⟩

end JournalMutationRuntime

end TxKernel.Ext4
