import TxKernel.Ext4.Journal.Lifecycle
import TxKernel.Library.Runs

/-!
The order in which a journal hands out graphs and finishes ring extents, over every sequence of
calls. The history beside it is computed from the calls, their answers and the ring alone.
-/

namespace TxKernel.Ext4

open Journal JournalRing

/-! ### Histories -/

/-- The outside view of the mutation that was begun last. -/
structure History where
  hasData : Bool
  extent : Option JournalRingReservation
  dataInFlight : Option ℕ
  dataDone : Bool
  commitInFlight : Option ℕ
  commitDone : Bool
  checkpointInFlight : Bool
  checkpointDone : Bool
  advanced : Bool
  unknown : Bool

namespace History

def start (hasData : Bool) (extent : Option JournalRingReservation) : History :=
  ⟨hasData, extent, none, false, none, false, false, false, false, false⟩

def observe (m : History) (advanced : Bool) : JournalCall → JournalAnswer → History
  | .begin t e, .result (.ok _) => start t.containsDataWrites e
  | .planData r, .plan (.submitGraph _) => { m with dataInFlight := some r.id }
  | .completeData c, _ =>
    if c.op = .writeback ∧ m.dataInFlight = some c.id then
      { m with dataInFlight := none, dataDone := m.dataDone || decide (c.result = .done) }
    else m
  | .planFsync r, .plan (.submitGraph _) => { m with commitInFlight := some r.id }
  | .completeFsync c, _ =>
    if c.op = .fsync ∧ m.commitInFlight = some c.id then
      { m with commitInFlight := none, commitDone := decide (c.result = .done) }
    else m
  | .commitUnknown r _, _ =>
    if m.commitInFlight = some r then { m with commitInFlight := none, unknown := true } else m
  | .takeCheckpointGraph, .graph (.ok (some _)) => { m with checkpointInFlight := true }
  | .completeCheckpoint r, _ =>
    if m.checkpointInFlight then
      { m with checkpointInFlight := false, checkpointDone := r.isOk }
    else m
  | .reclaimTail, _ => { m with advanced := m.advanced || advanced }
  | _, _ => m

end History

def Journal.advances (j j' : Journal) : Bool := j'.ring.state.sequence != j.ring.state.sequence

structure Observed where
  journal : Journal
  history : History

namespace Observed

def new (ring : JournalRing) : Observed := ⟨⟨ring, .new, false⟩, .start false none⟩

def step (s : Observed) (c : JournalCall) : Observed × JournalAnswer :=
  let (journal, answer) := s.journal.step c
  (⟨journal, s.history.observe (s.journal.advances journal) c answer⟩, answer)

/-- A completion for a request that is not in flight. -/
def Stray (m : History) : JournalCall → Prop
  | .completeData c => m.dataInFlight ≠ some c.id
  | .completeFsync c => m.commitInFlight ≠ some c.id
  | .commitUnknown r _ => m.commitInFlight ≠ some r
  | .completeCheckpoint _ => m.checkpointInFlight = false
  | _ => False

/-- What a call may do after a history. -/
structure Lawful (s : Observed) (c : JournalCall) : Prop where
  commit : handedOut c (s.step c).2 = some .commit →
    s.history.dataInFlight = none ∧ (s.history.hasData = false ∨ s.history.dataDone = true)
  checkpoint : handedOut c (s.step c).2 = some .checkpoint → s.history.commitDone = true
  advance : (s.step c).1.journal.ring.state.cursor ≠ s.journal.ring.state.cursor
      ∨ (s.step c).1.journal.ring.state.sequence ≠ s.journal.ring.state.sequence →
    s.history.checkpointDone = true ∧ s.history.advanced = false
      ∧ ∃ r, s.history.extent = some r
        ∧ s.journal.ring.complete r true = .ok (s.step c).1.journal.ring
  settled : s.history.commitDone = true → s.journal.source.mutation.isSome →
    (s.step c).1.journal.source.mutation = none →
    s.history.checkpointDone = true ∧ ∀ r, s.history.extent = some r →
      s.journal.ring.complete r true = .ok (s.step c).1.journal.ring
  reclaim : c = .reclaimTail → s.journal.settling = true →
    (∀ r, s.history.extent = some r → s.journal.ring.state.active = some r) →
    (s.step c).1.journal.source.mutation = none
  held : ∀ r, s.history.extent = some r → s.journal.ring.state.active = some r → c ≠ .abandon r →
    (s.step c).1.journal.source.mutation.isSome → (s.step c).1.journal.ring.state.active = some r
  stray : Stray s.history c → (s.step c).1.journal = s.journal
  unknown : s.history.unknown = true → handedOut c (s.step c).2 = none
    ∧ (s.step c).1.history.unknown = true ∧ (s.step c).1.history.extent = s.history.extent
    ∧ ((∀ r, c ≠ .abandon r) → (∀ m r, c ≠ .reserve m r) →
        (s.step c).1.journal.ring = s.journal.ring)
    ∧ ∀ r, s.history.extent = some r → s.journal.ring.state.active = some r → c ≠ .abandon r →
      (s.step c).1.journal.ring.state.active = some r

/-! ### The invariant -/

/-- A history and the handle of the mutation it is about. -/
structure Tracks (j : Journal) (m : History) (h : MutationHandle) : Prop where
  hasData : m.hasData = h.transaction.containsDataWrites
  extent : m.extent = h.journalExtent
  dataInFlight : m.dataInFlight = h.dataRequest
  commitInFlight : m.commitInFlight = if h.phase = .commitPending then h.commitRequest else none
  checkpointInFlight : m.checkpointInFlight = j.source.checkpointSubmitted
  advanced : m.advanced = false
  submitted : j.source.checkpointSubmitted = decide (h.phase = .checkpointPending)
  recovery : j.source.recoveryOnly = decide (h.phase = .recoveryOnly)
  unknown : m.unknown = decide (h.phase = .recoveryOnly)
  settling : j.settling = true → h.phase = .tailReclaimPending
  writing : h.dataRequest ≠ none → h.phase = .prepared
  ordered : h.phase ≠ .admitted → h.dataRequest = none → m.hasData = false ∨ m.dataDone = true
  committing : h.phase = .admitted ∨ h.phase = .prepared → m.commitDone = false
  pending : h.phase = .commitPending → m.commitDone = false
  doubtful : h.phase = .recoveryOnly → m.commitDone = false
  committed : h.phase = .committedNeedsSettlement ∨ h.phase = .checkpointPending
    ∨ h.phase = .tailReclaimPending → m.commitDone = true
  checkpointed : h.phase = .tailReclaimPending → m.checkpointDone = true

structure Idle (j : Journal) (m : History) : Prop where
  submitted : j.source.checkpointSubmitted = false
  recovery : j.source.recoveryOnly = false
  settling : j.settling = false
  dataInFlight : m.dataInFlight = none
  commitInFlight : m.commitInFlight = none
  checkpointInFlight : m.checkpointInFlight = false
  unknown : m.unknown = false

def Agree (s : Observed) : Prop :=
  match s.journal.source.mutation with
  | none => Idle s.journal s.history
  | some h => Tracks s.journal s.history h

namespace Tracks

variable {j : Journal} {m : History} {g : MutationHandle} (ht : Tracks j m g)

include ht

lemma not_settling (hphase : g.phase ≠ .tailReclaimPending) : j.settling = false :=
  eq_false_of_ne_true (mt ht.settling hphase)

lemma of_dataInFlight {r : ℕ} (hreq : g.dataRequest = some r) : g.phase = .prepared :=
  ht.writing (by simp [hreq])

lemma dataRequest_eq_none (hphase : g.phase ≠ .prepared) : g.dataRequest = none :=
  not_not.mp (mt ht.writing hphase)

lemma commitInFlight_eq_some {r : ℕ} (hr : m.commitInFlight = some r) :
    g.phase = .commitPending ∧ g.commitRequest = some r := by
  rw [ht.commitInFlight] at hr
  split_ifs at hr with hphase
  exact ⟨hphase, hr⟩

lemma commitInFlight_eq_none (hphase : g.phase ≠ .commitPending) : m.commitInFlight = none := by
  rw [ht.commitInFlight, if_neg hphase]

lemma before_commit (hphase : g.phase = .admitted ∨ g.phase = .prepared ∨
    g.phase = .commitPending) :
    m.commitDone = false ∧ m.unknown = false ∧ j.source.checkpointSubmitted = false
      ∧ j.source.recoveryOnly = false ∧ m.checkpointInFlight = false ∧ j.settling = false := by
  rw [ht.unknown, ht.checkpointInFlight, ht.submitted, ht.recovery]
  rcases hphase with hp | hp | hp <;>
    simp [hp, ht.not_settling, ht.committing, ht.pending]

lemma after_commit (hphase : g.phase = .committedNeedsSettlement ∨ g.phase = .checkpointPending
      ∨ g.phase = .tailReclaimPending) :
    m.commitDone = true ∧ m.unknown = false ∧ j.source.recoveryOnly = false
      ∧ g.dataRequest = none ∧ m.commitInFlight = none := by
  rw [ht.unknown, ht.recovery, ht.commitInFlight, ht.committed hphase]
  rcases hphase with hp | hp | hp <;> simp [hp, ht.dataRequest_eq_none]

lemma ordered_of_ne (hadmitted : g.phase ≠ .admitted) (hprepared : g.phase ≠ .prepared) :
    m.hasData = false ∨ m.dataDone = true :=
  ht.ordered hadmitted (ht.dataRequest_eq_none hprepared)

end Tracks

lemma agree_new (ring : JournalRing) : Agree (new ring) := ⟨rfl, rfl, rfl, rfl, rfl, rfl, rfl⟩

/-! ### One call -/

open MutationHandle Journal

variable {s : Observed} {c : JournalCall}

lemma lawful_of_ring (hring : (s.step c).1.journal.ring = s.journal.ring)
    (hmut : s.journal.source.mutation.isSome → (s.step c).1.journal.source.mutation.isSome)
    (hreclaim : c = .reclaimTail → s.journal.settling = false)
    (hcommit : handedOut c (s.step c).2 = some .commit →
      s.history.dataInFlight = none ∧ (s.history.hasData = false ∨ s.history.dataDone = true))
    (hcheckpoint : handedOut c (s.step c).2 = some .checkpoint → s.history.commitDone = true)
    (hstray : Stray s.history c → (s.step c).1.journal = s.journal)
    (hunknown : s.history.unknown = true → handedOut c (s.step c).2 = none
      ∧ (s.step c).1.history.unknown = true ∧ (s.step c).1.history.extent = s.history.extent) :
    Lawful s c where
  commit := hcommit
  checkpoint := hcheckpoint
  advance := by simp [hring]
  settled _ hsome hnone := by simp [hnone] at hmut; simp [hmut] at hsome
  reclaim h hsettling := by simp [hreclaim h] at hsettling
  held r _ hact _ _ := by rw [hring, hact]
  stray := hstray
  unknown h := ⟨(hunknown h).1, (hunknown h).2.1, (hunknown h).2.2, fun _ _ => hring,
    fun r _ hact _ => by rw [hring, hact]⟩

/-- The invariant holds after the call, which did what it may. -/
def Keeps (s : Observed) (c : JournalCall) : Prop := Agree (s.step c).1 ∧ Lawful s c

lemma keeps_of_quiet (a : JournalAnswer) (h : Agree s) (hj : s.journal.step c = (s.journal, a))
    (hm : s.history.observe false c a = s.history) (hout : handedOut c a = none)
    (hreclaim : c = .reclaimTail → s.journal.settling = false) : Keeps s c := by
  have hs : s.step c = (s, a) := by simp [step, hj, advances, hm]
  refine ⟨by rw [hs]; exact h, lawful_of_ring ?_ ?_ hreclaim ?_ ?_ ?_ ?_⟩
  all_goals simp [hs, hout]

lemma lawful_of_release (hcursor : (s.step c).1.journal.ring.state.cursor =
    s.journal.ring.state.cursor)
    (hsequence : (s.step c).1.journal.ring.state.sequence = s.journal.ring.state.sequence)
    (hmut : (s.step c).1.journal.source.mutation = none) (hreclaim : c ≠ .reclaimTail)
    (hout : handedOut c (s.step c).2 = none) (hcommitted : s.history.commitDone = false)
    (hunknown : s.history.unknown = false) (hstray : ¬ Stray s.history c) : Lawful s c where
  commit := by simp [hout]
  checkpoint := by simp [hout]
  advance := by simp [hcursor, hsequence]
  settled h := by simp [hcommitted] at h
  reclaim h := absurd h hreclaim
  held := by simp [hmut]
  stray h := absurd h hstray
  unknown := by simp [hunknown]

lemma agree_none (hs : s.journal.source.mutation = none) : Agree s ↔ Idle s.journal s.history := by
  rw [Agree, hs]

lemma agree_some {g : MutationHandle} (hs : s.journal.source.mutation = some g) :
    Agree s ↔ Tracks s.journal s.history g := by
  rw [Agree, hs]

section

variable (h : Agree s) {a : JournalAnswer}

include h

lemma keeps_begin (t : JournalTransactionPlan) (e : Option JournalRingReservation) :
    Keeps s (.begin t e) := by
  rcases hs : s.journal.source.mutation with _ | g
  · rw [agree_none hs] at h
    have hj : s.journal.step (.begin t e)
        = (s.journal.withMutation (some (admitMutation t e)), .result (.ok ())) := by
      simp [Journal.step, Journal.begin, hs]
    constructor
    · simp only [step, hj]
      cases hd : t.containsDataWrites <;> constructor <;>
        simp [withMutation, History.observe, History.start, admitMutation, hd, h.submitted,
          h.recovery, h.settling]
    · apply lawful_of_ring <;>
        simp [step, hj, withMutation, handedOut, Stray, h.unknown]
  · exact keeps_of_quiet (.result (.error .busy)) h (by simp [Journal.step, Journal.begin, hs])
      rfl rfl (by simp)

lemma coherent_of_agree : s.journal.Coherent := by
  rcases hs : s.journal.source.mutation with _ | g
  · have hi := (agree_none hs).1 h
    exact coherent_of_none hs hi.submitted hi.settling
  have ht := (agree_some hs).1 h
  refine ⟨?_, fun hsub => ⟨g, hs, ?_⟩, fun hset => ⟨g, hs, ht.settling hset⟩⟩
  · simpa [hs] using ht.writing
  · simpa [ht.submitted] using hsub

lemma observe_of_quiet (hc : c.IsCallback) (hq : ¬ s.journal.InFlight c)
    (hout : handedOut c a = none) :
    s.history.observe false c a = s.history := by
  have hdata : s.history.dataInFlight = s.journal.source.mutation.bind (·.dataRequest) := by
    rcases hs : s.journal.source.mutation with _ | g
    · exact ((agree_none hs).1 h).dataInFlight
    · exact ((agree_some hs).1 h).dataInFlight
  have hcommit : ∀ r, s.history.commitInFlight = some r → ∃ g, s.journal.source.mutation = some g
      ∧ g.phase = .commitPending ∧ g.commitRequest = some r := by
    intro r hr
    rcases hs : s.journal.source.mutation with _ | g
    · simp [((agree_none hs).1 h).commitInFlight] at hr
    obtain ⟨hphase, hreq⟩ := ((agree_some hs).1 h).commitInFlight_eq_some hr
    exact ⟨g, rfl, hphase, hreq⟩
  have hcheckpoint : s.history.checkpointInFlight = s.journal.source.checkpointSubmitted := by
    rcases hs : s.journal.source.mutation with _ | g
    · have hi := (agree_none hs).1 h
      rw [hi.checkpointInFlight, hi.submitted]
    · exact ((agree_some hs).1 h).checkpointInFlight
  cases c with
  | reserve | abandon | begin => exact hc.elim
  | planData | planFsync => rcases a with _ | (_ | _) | _ | _ | _ <;> first | rfl | cases hout
  | takeCheckpointGraph =>
    rcases a with _ | _ | _ | (_ | (_ | _)) | _ <;> first | rfl | cases hout
  | completeData c =>
    refine if_neg fun hin => hq ⟨hin.1, ?_⟩
    simpa [hdata, Option.bind_eq_some_iff] using hin.2
  | completeFsync c => exact if_neg fun hin => hq ⟨hin.1, hcommit _ hin.2⟩
  | commitUnknown r e => exact if_neg fun hin => hq (hcommit _ hin)
  | completeCheckpoint r => exact if_neg fun hin => hq (hcheckpoint.symm.trans hin)
  | abortUnsubmittedData e => rfl
  | reclaimTail => simp [History.observe]

lemma agree_callback {j' : Journal} (hcall : c.IsCallback) (he : Effect s.journal c j' a) :
    Agree ⟨j', s.history.observe (s.journal.advances j') c a⟩ := by
  cases he with
  | quiet hq hout =>
    rw [advances, bne_self_eq_false, observe_of_quiet h hcall hq hout]
    exact h
  | data r hs hphase hreq =>
    have ht := (agree_some hs).1 h
    have hcommit := ht.commitInFlight_eq_none (by rcases hphase with hp | hp <;> simp [hp])
    have hb := ht.before_commit (hphase.imp_right .inl)
    rw [agree_some rfl]
    constructor <;> simp [withMutation, History.observe, ht.hasData, ht.extent, ht.advanced,
      hcommit, hb]
  | dataDone hop hs hreq hres =>
    have ht := (agree_some hs).1 h
    have hphase := ht.of_dataInFlight hreq
    have hb := ht.before_commit (by simp [hphase])
    rw [agree_some rfl]
    constructor <;> simp [withMutation, History.observe, ht.hasData, ht.extent, ht.advanced,
      ht.dataInFlight, ht.commitInFlight, hop, hreq, hres, hphase, hb]
  | commit r hs hphase hreq =>
    have ht := (agree_some hs).1 h
    have hordered := ht.ordered (by simp [hphase]) hreq
    have hb := ht.before_commit (by simp [hphase])
    rw [agree_some rfl]
    constructor <;> simp [withMutation, History.observe, ← ht.hasData, ht.extent, ht.advanced,
      ht.dataInFlight, hreq, hordered, hb]
  | commitDone hop hs hphase hreq hres | commitUnknown e hs hphase hreq =>
    have ht := (agree_some hs).1 h
    have hordered := ht.ordered_of_ne (by simp [hphase]) (by simp [hphase])
    have hb := ht.before_commit (by simp [hphase])
    have hdata := ht.dataRequest_eq_none (by simp [hphase])
    rw [agree_some rfl]
    constructor <;> simp [withMutation, History.observe, ← ht.hasData, ht.extent, ht.advanced,
      ht.dataInFlight, ht.commitInFlight, *]
  | checkpoint hs hphase | checkpointFailed e hs hphase =>
    have ht := (agree_some hs).1 h
    have hordered := ht.ordered_of_ne (by simp [hphase]) (by simp [hphase])
    have ha := ht.after_commit (by simp [hphase])
    have hset := ht.not_settling (by simp [hphase])
    rw [agree_some rfl]
    constructor <;> simp [History.observe, ← ht.hasData, ht.extent, ht.advanced, ht.dataInFlight,
      ht.checkpointInFlight, ht.submitted, *]
  | checkpointDone hs hphase =>
    have ht := (agree_some hs).1 h
    have hordered := ht.ordered_of_ne (by simp [hphase]) (by simp [hphase])
    have ha := ht.after_commit (by simp [hphase])
    rw [agree_some rfl]
    constructor <;> simp [History.observe, ← ht.hasData, ht.extent, ht.advanced, Except.isOk,
      Except.toBool, ht.dataInFlight, ht.checkpointInFlight, ht.submitted, hphase, ha, hordered]
  | dataFailed hop hs hreq =>
    have ht := (agree_some hs).1 h
    have hphase := ht.of_dataInFlight hreq
    have hb := ht.before_commit (by simp [hphase])
    rw [agree_none rfl]
    constructor <;> simp [settle, withMutation, History.observe, ht.dataInFlight, ht.commitInFlight,
      hop, hreq, hphase, hb]
  | aborted e hs hphase hreq =>
    have ht := (agree_some hs).1 h
    have hcommit := ht.commitInFlight_eq_none (by rcases hphase with hp | hp <;> simp [hp])
    have hb := ht.before_commit (hphase.imp_right .inl)
    rw [agree_none rfl]
    constructor <;> simp [settle, withMutation, History.observe, ht.dataInFlight, hcommit, hreq, hb]
  | commitFailed hop hs hphase hreq =>
    have ht := (agree_some hs).1 h
    have hdata := ht.dataRequest_eq_none (by simp [hphase])
    have hb := ht.before_commit (by simp [hphase])
    rw [agree_none rfl]
    constructor <;> simp [settle, withMutation, History.observe, ht.dataInFlight, ht.commitInFlight,
      hop, hreq, hphase, hdata, hb]
  | reclaimed hs hphase =>
    have ht := (agree_some hs).1 h
    have ha := ht.after_commit (by simp [hphase])
    rw [agree_none rfl]
    constructor <;> simp [withMutation, History.observe, ht.dataInFlight, ht.checkpointInFlight,
      ht.submitted, hphase, ha]
  | @reclaimFailed _ e hs =>
    have ht := (agree_some hs).1 h
    have hm : s.history.observe (s.journal.advances { s.journal with settling := false })
        .reclaimTail (.result (.error e)) = s.history := by
      simp [History.observe, advances]
    simp only [hm, Agree, hs]
    exact { ht with settling := by simp }

lemma lawful_callback (hcall : c.IsCallback)
    (he : Effect s.journal c (s.journal.step c).1 (s.journal.step c).2) : Lawful s c := by
  generalize hj : s.journal.step c = p at he
  obtain ⟨j', a⟩ := p
  simp only at he
  cases he with
  | quiet hq hout =>
    exact (keeps_of_quiet a h hj (observe_of_quiet h hcall hq hout) hout
      (fun hr => by subst hr; simpa [Journal.InFlight] using hq)).2
  | data r hs hphase =>
    have hb := ((agree_some hs).1 h).before_commit (hphase.imp_right .inl)
    apply lawful_of_ring <;> simp [step, hj, withMutation, handedOut, Stray, hb]
  | dataDone hop hs hreq =>
    have ht := (agree_some hs).1 h
    have hb := ht.before_commit (by simp [ht.of_dataInFlight hreq])
    apply lawful_of_ring <;>
      simp [step, hj, withMutation, handedOut, Stray, ht.dataInFlight, hreq, hb]
  | commit r hs hphase hreq =>
    have ht := (agree_some hs).1 h
    have hordered := ht.ordered (by simp [hphase]) hreq
    have hb := ht.before_commit (by simp [hphase])
    apply lawful_of_ring <;>
      simp [step, hj, withMutation, handedOut, Stray, ht.dataInFlight, hreq, hordered, hb]
  | commitDone hop hs hphase hreq =>
    have ht := (agree_some hs).1 h
    have hb := ht.before_commit (by simp [hphase])
    apply lawful_of_ring <;>
      simp [step, hj, withMutation, handedOut, Stray, ht.commitInFlight, hphase, hreq, hb]
  | commitUnknown e hs hphase hreq =>
    have ht := (agree_some hs).1 h
    have hb := ht.before_commit (by simp [hphase])
    apply lawful_of_ring <;>
      simp [step, hj, handedOut, Stray, ht.commitInFlight, hphase, hreq, hb]
  | checkpoint hs hphase =>
    have ha := ((agree_some hs).1 h).after_commit (by simp [hphase])
    apply lawful_of_ring <;> simp [step, hj, handedOut, Stray, ha]
  | checkpointFailed e hs hphase | checkpointDone hs hphase =>
    have ht := (agree_some hs).1 h
    have ha := ht.after_commit (by simp [hphase])
    apply lawful_of_ring <;>
      simp [step, hj, handedOut, Stray, ht.checkpointInFlight, ht.submitted, hphase, ha]
  -- in the next three cases the extent of the mutation is rolled back
  | dataFailed hop hs hreq =>
    have ht := (agree_some hs).1 h
    have hb := ht.before_commit (by simp [ht.of_dataInFlight hreq])
    apply lawful_of_release <;> simp [step, hj, settle, withMutation, handedOut, Stray,
      rollbackPrecommit_ring, ht.dataInFlight, hreq, hb]
  | aborted e hs hphase =>
    have hb := ((agree_some hs).1 h).before_commit (hphase.imp_right .inl)
    apply lawful_of_release <;> simp [step, hj, settle, withMutation, handedOut, Stray,
      rollbackPrecommit_ring, hb]
  | commitFailed hop hs hphase hreq =>
    have ht := (agree_some hs).1 h
    have hb := ht.before_commit (by simp [hphase])
    apply lawful_of_release <;> simp [step, hj, settle, withMutation, handedOut, Stray,
      rollbackPrecommit_ring, ht.commitInFlight, hphase, hreq, hb]
  | @reclaimFailed g e hs hphase hset hc =>
    have ht := (agree_some hs).1 h
    constructor
    case reclaim =>
      -- the ring refuses only an extent that is not its active one
      intro _ _ hactive
      rw [ht.extent] at hactive
      obtain ⟨p, hp⟩ := exists_completeTailReclaim hphase hactive
      simp [hp] at hc
    all_goals simp_all [step, handedOut, Stray, History.observe]
  | @reclaimed g g' ring' hs hphase hset hc =>
    have ht := (agree_some hs).1 h
    have hsure : s.history.unknown = false := by simp [ht.unknown, hphase]
    have hdone : s.history.checkpointDone = true := ht.checkpointed hphase
    have hadvance := completeTailReclaim_ok hc
    rw [← ht.extent] at hadvance
    constructor
    case advance =>
      intro hmoved
      refine ⟨hdone, ht.advanced, ?_⟩
      obtain ⟨-, rfl⟩ | hr := hadvance
      · simp [step, hj, withMutation] at hmoved
      · simpa [step, hj] using hr
    case settled =>
      refine fun _ _ _ => ⟨hdone, fun r hr => ?_⟩
      obtain ⟨hn, -⟩ | ⟨r', hr', hc'⟩ := hadvance
      · simp [hn] at hr
      · obtain rfl : r' = r := by simpa [hr'] using hr
        simpa [step, hj] using hc'
    all_goals simp [step, hj, handedOut, Stray, hsure, withMutation]

lemma keeps_of_ringCall {ring' : JournalRing}
    (hj : s.journal.step c = ({ s.journal with ring := ring' }, a))
    (hm : ∀ b, s.history.observe b c a = s.history)
    (hcursor : ring'.state.cursor = s.journal.ring.state.cursor)
    (hsequence : ring'.state.sequence = s.journal.ring.state.sequence)
    (hactive : ∀ r, s.journal.ring.state.active = some r → c ≠ .abandon r →
      ring'.state.active = some r)
    (hout : handedOut c a = none) (hstray : ¬ Stray s.history c)
    (hcall : (∃ m r, c = .reserve m r) ∨ ∃ r, c = .abandon r) : Keeps s c := by
  constructor
  · simp only [step, hj, hm]
    rcases hs : s.journal.source.mutation with _ | g
    · simp only [Agree, hs]
      obtain ⟨h1, h2, h3, h4, h5, h6, h7⟩ := (agree_none hs).1 h
      exact ⟨h1, h2, h3, h4, h5, h6, h7⟩
    · simp only [Agree, hs]
      have ht := (agree_some hs).1 h
      exact { ht with }
  constructor
  case reclaim => rcases hcall with ⟨m, r, rfl⟩ | ⟨r, rfl⟩ <;> simp
  case settled =>
    intro _ hsome hnone
    simp only [step, hj] at hnone
    simp [hnone] at hsome
  case unknown =>
    intro hu
    refine ⟨by simp [step, hj, hout], by simp [step, hj, hm, hu], by simp [step, hj, hm], ?_, ?_⟩
    · rcases hcall with ⟨m, r, rfl⟩ | ⟨r, rfl⟩ <;> simp
    · simpa [step, hj] using fun r _ => hactive r
  all_goals simp_all [step]

lemma keeps_reserve (m r : ℕ) : Keeps s (.reserve m r) := by
  rcases hr : s.journal.ring.reserveWithRevokePages m r with e | ⟨reservation, ring'⟩
  · exact keeps_of_quiet (.reservation (.error e)) h (by simp [Journal.step, Journal.reserve, hr])
      rfl rfl (by simp)
  have hres := reserve_ok hr
  refine keeps_of_ringCall (a := .reservation (.ok reservation)) h
    (by simp [Journal.step, Journal.reserve, hr]; rfl)
    (fun _ => rfl) ?_ ?_ ?_ rfl id (.inl ⟨m, r, rfl⟩)
  · rw [hres.ring]
  · rw [hres.ring]
  · simp [hres.idle]

lemma keeps_abandon (r : JournalRingReservation) : Keeps s (.abandon r) := by
  rcases hc : s.journal.ring.complete r false with e | ring'
  · exact keeps_of_quiet .unit h (by simp [Journal.step, Journal.abandon, hc]) rfl rfl (by simp)
  obtain ⟨hactive, hring⟩ := complete_ok hc
  refine keeps_of_ringCall (a := .unit) h (by simp [Journal.step, Journal.abandon, hc]; rfl)
    (fun _ => rfl) (by rw [hring]; rfl) (by rw [hring]; rfl) ?_ rfl id (.inr ⟨r, rfl⟩)
  intro r' hr' hne
  rw [hactive, Option.some_inj] at hr'
  exact absurd (by rw [hr']) hne

end

/-- **One step**: from a journal that agrees with its history, every call does only what it may, and
the two agree again. -/
lemma keeps_step (h : Agree s) (c : JournalCall) : Keeps s c := by
  by_cases hc : c.IsCallback
  · have he := effect_step (coherent_of_agree h) hc
    exact ⟨agree_callback h hc he, lawful_callback h hc he⟩
  cases c with
  | reserve m r => exact keeps_reserve h m r
  | abandon r => exact keeps_abandon h r
  | begin t e => exact keeps_begin h t e
  | _ => exact absurd trivial hc

end Observed

end TxKernel.Ext4
