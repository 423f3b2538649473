import TxKernel.Ext4.Journal.TransactionPlan

/-!
The lifecycle of a mutation: its handle, the source that callbacks go through, and the ring. Every
call takes the lock of the source and is one step; completing a checkpoint is two, since the lock is
dropped while the mount invalidates its caches.
-/

namespace TxKernel.Ext4

inductive Errno
  | einval
  | eio
  | eagain
  | ebusy
  | other (code : ℕ)
  deriving DecidableEq

inductive PageIoOp
  | read
  | writeback
  | fsync
  | checkpoint
  | readahead
  deriving DecidableEq

inductive PageIoResult
  | done
  | err (error : Errno)
  deriving DecidableEq

inductive BackendPlan
  | submitGraph (graph : BioGraph JournalBio)
  | err (error : Errno)

structure BackendPageRequest where
  id : ℕ
  op : PageIoOp

structure BackendPageCompletion where
  id : ℕ
  op : PageIoOp
  result : PageIoResult

inductive JournalTransactionStateError
  | busy
  | missing
  | dataNotDurable
  | commitNotSubmitted
  | notCommitted
  deriving DecidableEq

inductive MutationPhase
  | admitted
  | prepared
  | commitPending
  | committedNeedsSettlement
  | checkpointPending
  | tailReclaimPending
  | abortRequested
  | abortDraining
  | settled
  | rolledBack
  | commitUnknown
  | recoveryOnly
  deriving DecidableEq

inductive MutationTerminal
  | retained
  | release
  deriving DecidableEq

/-! ### The handle of a mutation -/

structure MutationHandle where
  phase : MutationPhase
  transaction : JournalTransactionPlan
  journalExtent : Option JournalRingReservation
  dataRequest : Option ℕ
  commitRequest : Option ℕ
  lastError : Option Errno

namespace MutationHandle

abbrev Graph := BioGraph JournalBio

def admitMutation (transaction : JournalTransactionPlan) (extent : Option JournalRingReservation) :
    MutationHandle where
  phase := if transaction.containsDataWrites then .admitted else .prepared
  transaction := transaction
  journalExtent := extent
  dataRequest := none
  commitRequest := none
  lastError := none

def prepareData (h : MutationHandle) (request : ℕ) :
    Except JournalTransactionStateError Graph × MutationHandle :=
  let h := if h.phase = .admitted then { h with phase := .prepared } else h
  if h.phase ≠ .prepared ∨ h.dataRequest.isSome then (.error .busy, h)
  else
    match h.transaction.dataGraph with
    | .ok graph => (.ok graph, { h with dataRequest := some request })
    | .error _ => (.error .dataNotDurable, h)

def rollbackPrecommit (h : MutationHandle) (ring : JournalRing) : MutationHandle × JournalRing :=
  match h.journalExtent with
  | none => ({ h with phase := .rolledBack }, ring)
  | some extent =>
    match ring.complete extent false with
    | .ok ring' => ({ h with journalExtent := none, phase := .rolledBack }, ring')
    | .error _ => ({ h with journalExtent := none, phase := .rolledBack }, ring)

def completeData (h : MutationHandle) (request : ℕ) (result : PageIoResult) (ring : JournalRing) :
    MutationTerminal × MutationHandle × JournalRing :=
  if h.dataRequest ≠ some request then (.retained, h, ring)
  else
    match result with
    | .done => (.retained, { h with dataRequest := none }, ring)
    | .err e =>
      (.release, rollbackPrecommit { h with dataRequest := none, lastError := some e } ring)

def abortUnsubmittedData (h : MutationHandle) (error : Errno) (ring : JournalRing) :
    MutationTerminal × MutationHandle × JournalRing :=
  if h.dataRequest.isSome ∨ ¬ (h.phase = .admitted ∨ h.phase = .prepared) then (.retained, h, ring)
  else (.release, rollbackPrecommit { h with lastError := some error } ring)

def prepareCommit (h : MutationHandle) (request : ℕ) :
    Except JournalTransactionStateError Graph × MutationHandle :=
  if h.phase ≠ .prepared ∨ h.dataRequest.isSome ∨ h.commitRequest.isSome then
    (.error .dataNotDurable, h)
  else
    match h.transaction.commitGraphAfterData with
    | .ok graph => (.ok graph, { h with phase := .commitPending, commitRequest := some request })
    | .error _ => (.error .dataNotDurable, h)

def completeCommit (h : MutationHandle) (request : ℕ) (result : PageIoResult) (ring : JournalRing) :
    MutationTerminal × MutationHandle × JournalRing :=
  if h.phase ≠ .commitPending ∨ h.commitRequest ≠ some request then (.retained, h, ring)
  else
    match result with
    | .done =>
      (.retained, { h with commitRequest := none, phase := .committedNeedsSettlement }, ring)
    | .err e =>
      (.release, rollbackPrecommit { h with commitRequest := none, lastError := some e } ring)

def prepareCheckpoint (h : MutationHandle) :
    Except JournalTransactionStateError (Option Graph) × MutationHandle :=
  if h.phase ≠ .committedNeedsSettlement then (.error .notCommitted, h)
  else
    match h.transaction.checkpointGraphAfterCommit with
    | .ok (some graph) => (.ok (some graph), { h with phase := .checkpointPending })
    | .ok none => (.ok none, h)
    | .error _ => (.error .notCommitted, h)

def completeCheckpoint (h : MutationHandle) (result : Except Errno Unit) :
    Except JournalTransactionStateError MutationHandle :=
  if h.phase ≠ .checkpointPending then .error .notCommitted
  else
    match result with
    | .error e => .ok { h with lastError := some e, phase := .committedNeedsSettlement }
    | .ok () => .ok { h with phase := .tailReclaimPending }

def completeTailReclaim (h : MutationHandle) (ring : JournalRing) :
    Except JournalTransactionStateError (MutationHandle × JournalRing) :=
  if h.phase ≠ .tailReclaimPending then .error .notCommitted
  else
    match h.journalExtent with
    | none => .ok ({ h with phase := .settled }, ring)
    | some extent =>
      match ring.complete extent true with
      | .ok ring' => .ok ({ h with journalExtent := none, phase := .settled }, ring')
      | .error _ => .error .notCommitted

def commitUnknown (h : MutationHandle) (request : ℕ) (error : Errno) : Bool × MutationHandle :=
  if h.phase ≠ .commitPending ∨ h.commitRequest ≠ some request then (false, h)
  else (true, { h with lastError := some error, phase := .recoveryOnly })

/-! ### What the handle does -/

section

variable (h : MutationHandle)

include h

lemma rollbackPrecommit_ring (ring : JournalRing) :
    (h.rollbackPrecommit ring).2.state.cursor = ring.state.cursor
      ∧ (h.rollbackPrecommit ring).2.state.sequence = ring.state.sequence := by
  rcases he : h.journalExtent with _ | extent
  · simp [rollbackPrecommit, he]
  rcases hc : ring.complete extent false with e | ring'
  · simp [rollbackPrecommit, he, hc]
  obtain ⟨-, rfl⟩ := JournalRing.complete_ok hc
  simp [rollbackPrecommit, he, hc]

lemma prepareData_cases (request : ℕ) (hw : h.dataRequest ≠ none → h.phase = .prepared) :
    (∃ graph, (h.phase = .admitted ∨ h.phase = .prepared) ∧ h.dataRequest = none
      ∧ h.prepareData request = (.ok graph,
        { h with phase := .prepared, dataRequest := some request }))
    ∨ h.prepareData request = (.error .busy, h) := by
  obtain ⟨phase, t, e, d, cr, le⟩ := h
  cases d with
  | some d =>
    obtain rfl : phase = .prepared := hw (by simp)
    exact .inr (by simp [prepareData])
  | none =>
    cases phase <;> first
      | exact .inl ⟨_, by simp, rfl,
          by simp [prepareData, JournalTransactionPlan.dataGraph_eq]; rfl⟩
      | exact .inr (by simp [prepareData])

lemma prepareCommit_cases (request : ℕ) :
    (∃ graph, h.phase = .prepared ∧ h.dataRequest = none ∧ h.prepareCommit request
      = (.ok graph, { h with phase := .commitPending, commitRequest := some request }))
    ∨ h.prepareCommit request = (.error .dataNotDurable, h) := by
  rw [prepareCommit]
  split
  · exact .inr rfl
  rename_i hopen
  simp only [not_or, not_not, Option.not_isSome_iff_eq_none] at hopen
  split
  · exact .inl ⟨_, hopen.1, hopen.2.1, rfl⟩
  · exact .inr rfl

lemma prepareCheckpoint_cases :
    (∃ graph, h.phase = .committedNeedsSettlement
      ∧ h.prepareCheckpoint = (.ok (some graph), { h with phase := .checkpointPending }))
    ∨ h.prepareCheckpoint = (.ok none, h) ∨ h.prepareCheckpoint = (.error .notCommitted, h) := by
  rw [prepareCheckpoint]
  split
  · exact .inr (.inr rfl)
  rename_i hphase
  split
  · exact .inl ⟨_, not_not.1 hphase, rfl⟩
  · exact .inr (.inl rfl)
  · exact .inr (.inr rfl)

end

variable {g : MutationHandle} {ring : JournalRing}

lemma completeTailReclaim_ok {g' : MutationHandle} {ring' : JournalRing}
    (h : g.completeTailReclaim ring = .ok (g', ring')) :
    (g.journalExtent = none ∧ ring' = ring)
      ∨ ∃ r, g.journalExtent = some r ∧ ring.complete r true = .ok ring' := by
  rw [completeTailReclaim] at h
  split at h
  · cases h
  split at h
  · cases h
    exact .inl ⟨‹_›, rfl⟩
  split at h
  · cases h
    exact .inr ⟨_, ‹_›, ‹_›⟩
  · cases h

lemma exists_completeTailReclaim (hphase : g.phase = .tailReclaimPending)
    (hactive : ∀ r, g.journalExtent = some r → ring.state.active = some r) :
    ∃ p, g.completeTailReclaim ring = .ok p := by
  rcases he : g.journalExtent with _ | r
  · simp [completeTailReclaim, hphase, he]
  obtain ⟨ring', hc⟩ := JournalRing.exists_complete (hactive r he) true
  simp [completeTailReclaim, hphase, he, hc]

end MutationHandle

/-! ### The source and the ring -/

structure JournalFsyncSource where
  mutation : Option MutationHandle
  checkpointSubmitted : Bool
  recoveryOnly : Bool
  mountError : Option Errno

def JournalFsyncSource.new : JournalFsyncSource := ⟨none, false, false, none⟩

/-- The journal of a mount; `settling` is set between the two steps of completing a checkpoint. -/
structure Journal where
  ring : JournalRing
  source : JournalFsyncSource
  settling : Bool

/-- The calls on a journal. `abandon` gives a reservation back for which no transaction could be
begun. -/
inductive JournalCall
  | reserve (metadataBlocks revokePages : ℕ)
  | abandon (reservation : JournalRingReservation)
  | begin (transaction : JournalTransactionPlan) (extent : Option JournalRingReservation)
  | planData (request : BackendPageRequest)
  | completeData (completion : BackendPageCompletion)
  | abortUnsubmittedData (error : Errno)
  | planFsync (request : BackendPageRequest)
  | completeFsync (completion : BackendPageCompletion)
  | commitUnknown (request : ℕ) (error : Errno)
  | takeCheckpointGraph
  | completeCheckpoint (result : Except Errno Unit)
  | reclaimTail

/-- The calls that the block layer makes. -/
def JournalCall.IsCallback : JournalCall → Prop
  | .reserve .. | .abandon _ | .begin .. => False
  | _ => True

inductive JournalAnswer
  | unit
  | plan (plan : BackendPlan)
  | result (result : Except JournalTransactionStateError Unit)
  | graph (graph : Except JournalTransactionStateError (Option (BioGraph JournalBio)))
  | reservation (result : Except JournalRingError JournalRingReservation)

inductive GraphKind
  | data
  | commit
  | checkpoint
  deriving DecidableEq

def handedOut : JournalCall → JournalAnswer → Option GraphKind
  | .planData _, .plan (.submitGraph _) => some .data
  | .planFsync _, .plan (.submitGraph _) => some .commit
  | .takeCheckpointGraph, .graph (.ok (some _)) => some .checkpoint
  | _, _ => none

namespace Journal

open MutationHandle Option

def withMutation (j : Journal) (mutation : Option MutationHandle) : Journal :=
  { j with source := { j.source with mutation } }

def settle (j : Journal) : MutationTerminal × MutationHandle × JournalRing → Journal
  | (.retained, h, ring) => { j.withMutation (some h) with ring }
  | (.release, _, ring) => { j.withMutation none with ring }

def begin (j : Journal) (transaction : JournalTransactionPlan)
    (extent : Option JournalRingReservation) : Journal × JournalAnswer :=
  if j.source.mutation.isSome then (j, .result (.error .busy))
  else (j.withMutation (some (admitMutation transaction extent)), .result (.ok ()))

def planData (j : Journal) (request : BackendPageRequest) : Journal × JournalAnswer :=
  if request.op ≠ .writeback then (j, .plan (.err .einval))
  else if j.source.recoveryOnly then (j, .plan (.err .eio))
  else
    match j.source.mutation with
    | none => (j, .plan (.err .eagain))
    | some h =>
      match h.prepareData request.id with
      | (.ok graph, h') => (j.withMutation (some h'), .plan (.submitGraph graph))
      | (.error .busy, h') => (j.withMutation (some h'), .plan (.err .ebusy))
      | (.error _, h') => (j.withMutation (some h'), .plan (.err .eio))

def completeData (j : Journal) (c : BackendPageCompletion) : Journal :=
  if c.op ≠ .writeback then j
  else
    match j.source.mutation with
    | none => j
    | some h => j.settle (h.completeData c.id c.result j.ring)

def abortUnsubmittedData (j : Journal) (error : Errno) : Journal :=
  match j.source.mutation with
  | none => j
  | some h => j.settle (h.abortUnsubmittedData error j.ring)

def planFsync (j : Journal) (request : BackendPageRequest) : Journal × JournalAnswer :=
  if request.op ≠ .fsync then (j, .plan (.err .einval))
  else if j.source.recoveryOnly then (j, .plan (.err .eio))
  else
    match j.source.mutation with
    | none => (j, .plan (.err .eagain))
    | some h =>
      match h.prepareCommit request.id with
      | (.ok graph, h') => (j.withMutation (some h'), .plan (.submitGraph graph))
      | (.error .dataNotDurable, h') => (j.withMutation (some h'), .plan (.err .eagain))
      | (.error .busy, h') => (j.withMutation (some h'), .plan (.err .ebusy))
      | (.error _, h') => (j.withMutation (some h'), .plan (.err .eio))

def completeFsync (j : Journal) (c : BackendPageCompletion) : Journal :=
  if c.op ≠ .fsync then j
  else
    match j.source.mutation with
    | none => j
    | some h => j.settle (h.completeCommit c.id c.result j.ring)

def commitUnknown (j : Journal) (request : ℕ) (error : Errno) : Journal :=
  match j.source.mutation with
  | none => j
  | some h =>
    match h.commitUnknown request error with
    | (true, h') => { j with source := { j.source with
        mutation := some h', recoveryOnly := true, mountError := some error } }
    | (false, h') => j.withMutation (some h')

def takeCheckpointGraph (j : Journal) : Journal × JournalAnswer :=
  if j.source.checkpointSubmitted then (j, .graph (.error .busy))
  else
    match j.source.mutation with
    | none => (j, .graph (.ok none))
    | some h =>
      match h.prepareCheckpoint with
      | (.ok graph, h') => ({ j with source := { j.source with
          mutation := some h', checkpointSubmitted := graph.isSome } }, .graph (.ok graph))
      | (.error e, h') => (j.withMutation (some h'), .graph (.error e))

/-- The first step of completing a checkpoint; when it succeeded there is no answer yet. -/
def completeCheckpoint (j : Journal) (result : Except Errno Unit) : Journal × JournalAnswer :=
  if j.source.checkpointSubmitted then
    let mountError := match result with
      | .error e => some e
      | .ok () => j.source.mountError
    let j := { j with source := { j.source with checkpointSubmitted := false, mountError } }
    match j.source.mutation with
    | none => (j, .result (.error .notCommitted))
    | some h =>
      match h.completeCheckpoint result with
      | .error e => (j, .result (.error e))
      | .ok h' =>
        match result with
        | .error _ => (j.withMutation (some h'), .result (.ok ()))
        | .ok () => ({ j.withMutation (some h') with settling := true }, .unit)
  else (j, .result (.error .notCommitted))

def reclaimTail (j : Journal) : Journal × JournalAnswer :=
  if j.settling then
    let j := { j with settling := false }
    match j.source.mutation with
    | none => (j, .result (.error .notCommitted))
    | some h =>
      match h.completeTailReclaim j.ring with
      | .error e => (j, .result (.error e))
      | .ok (_, ring) => ({ j.withMutation none with ring }, .result (.ok ()))
  else (j, .unit)

def reserve (j : Journal) (metadataBlocks revokePages : ℕ) : Journal × JournalAnswer :=
  match j.ring.reserveWithRevokePages metadataBlocks revokePages with
  | .ok (reservation, ring) => ({ j with ring }, .reservation (.ok reservation))
  | .error e => (j, .reservation (.error e))

def abandon (j : Journal) (reservation : JournalRingReservation) : Journal :=
  match j.ring.complete reservation false with
  | .ok ring => { j with ring }
  | .error _ => j

def step (j : Journal) : JournalCall → Journal × JournalAnswer
  | .reserve m r => j.reserve m r
  | .abandon r => (j.abandon r, .unit)
  | .begin t e => j.begin t e
  | .planData r => j.planData r
  | .completeData c => (j.completeData c, .unit)
  | .abortUnsubmittedData e => (j.abortUnsubmittedData e, .unit)
  | .planFsync r => j.planFsync r
  | .completeFsync c => (j.completeFsync c, .unit)
  | .commitUnknown r e => (j.commitUnknown r e, .unit)
  | .takeCheckpointGraph => j.takeCheckpointGraph
  | .completeCheckpoint r => j.completeCheckpoint r
  | .reclaimTail => j.reclaimTail

/-! ### What the callbacks do -/

/-- The completion of something that is in flight. -/
def InFlight (j : Journal) : JournalCall → Prop
  | .completeData c => c.op = .writeback
      ∧ ∃ g, j.source.mutation = some g ∧ g.dataRequest = some c.id
  | .completeFsync c => c.op = .fsync
      ∧ ∃ g, j.source.mutation = some g ∧ g.phase = .commitPending ∧ g.commitRequest = some c.id
  | .commitUnknown r _ =>
      ∃ g, j.source.mutation = some g ∧ g.phase = .commitPending ∧ g.commitRequest = some r
  | .completeCheckpoint _ => j.source.checkpointSubmitted = true
  | .reclaimTail => j.settling = true
  | _ => False

/-- What a callback does to a coherent journal. -/
inductive Effect (j : Journal) : JournalCall → Journal → JournalAnswer → Prop
  | quiet {c a} (hc : ¬ j.InFlight c) (hout : handedOut c a = none) : Effect j c j a
  | data {g graph} (r) (hs : j.source.mutation = some g)
      (hphase : g.phase = .admitted ∨ g.phase = .prepared) (hreq : g.dataRequest = none) :
      Effect j (.planData r)
        (j.withMutation (some { g with phase := .prepared, dataRequest := some r.id }))
        (.plan (.submitGraph graph))
  | dataDone {g c} (hop : c.op = .writeback) (hs : j.source.mutation = some g)
      (hreq : g.dataRequest = some c.id) (hres : c.result = .done) :
      Effect j (.completeData c) (j.withMutation (some { g with dataRequest := none })) .unit
  | dataFailed {g c e} (hop : c.op = .writeback) (hs : j.source.mutation = some g)
      (hreq : g.dataRequest = some c.id) (hres : c.result = .err e) :
      Effect j (.completeData c) (j.settle (.release,
        rollbackPrecommit { g with dataRequest := none, lastError := some e } j.ring)) .unit
  | aborted {g} (e) (hs : j.source.mutation = some g)
      (hphase : g.phase = .admitted ∨ g.phase = .prepared) (hreq : g.dataRequest = none) :
      Effect j (.abortUnsubmittedData e)
        (j.settle (.release, rollbackPrecommit { g with lastError := some e } j.ring)) .unit
  | commit {g graph} (r) (hs : j.source.mutation = some g) (hphase : g.phase = .prepared)
      (hreq : g.dataRequest = none) :
      Effect j (.planFsync r)
        (j.withMutation (some { g with phase := .commitPending, commitRequest := some r.id }))
        (.plan (.submitGraph graph))
  | commitDone {g c} (hop : c.op = .fsync) (hs : j.source.mutation = some g)
      (hphase : g.phase = .commitPending) (hreq : g.commitRequest = some c.id)
      (hres : c.result = .done) :
      Effect j (.completeFsync c) (j.withMutation
        (some { g with commitRequest := none, phase := .committedNeedsSettlement })) .unit
  | commitFailed {g c e} (hop : c.op = .fsync) (hs : j.source.mutation = some g)
      (hphase : g.phase = .commitPending) (hreq : g.commitRequest = some c.id)
      (hres : c.result = .err e) :
      Effect j (.completeFsync c) (j.settle (.release,
        rollbackPrecommit { g with commitRequest := none, lastError := some e } j.ring)) .unit
  | commitUnknown {g r} (e) (hs : j.source.mutation = some g) (hphase : g.phase = .commitPending)
      (hreq : g.commitRequest = some r) :
      Effect j (.commitUnknown r e) { j with source := { j.source with
        mutation := some { g with lastError := some e, phase := .recoveryOnly }
        recoveryOnly := true, mountError := some e } } .unit
  | checkpoint {g graph} (hs : j.source.mutation = some g)
      (hphase : g.phase = .committedNeedsSettlement) :
      Effect j .takeCheckpointGraph { j with source := { j.source with
        mutation := some { g with phase := .checkpointPending }, checkpointSubmitted := true } }
        (.graph (.ok (some graph)))
  | checkpointFailed {g} (e) (hs : j.source.mutation = some g)
      (hphase : g.phase = .checkpointPending) :
      Effect j (.completeCheckpoint (.error e)) { j with source := { j.source with
        mutation := some { g with lastError := some e, phase := .committedNeedsSettlement }
        checkpointSubmitted := false, mountError := some e } } (.result (.ok ()))
  | checkpointDone {g} (hs : j.source.mutation = some g) (hphase : g.phase = .checkpointPending) :
      Effect j (.completeCheckpoint (.ok ())) { j with
        source := { j.source with
          mutation := some { g with phase := .tailReclaimPending }, checkpointSubmitted := false }
        settling := true } .unit
  | reclaimFailed {g e} (hs : j.source.mutation = some g) (hphase : g.phase = .tailReclaimPending)
      (hset : j.settling = true) (hc : g.completeTailReclaim j.ring = .error e) :
      Effect j .reclaimTail { j with settling := false } (.result (.error e))
  | reclaimed {g g' ring'} (hs : j.source.mutation = some g)
      (hphase : g.phase = .tailReclaimPending) (hset : j.settling = true)
      (hc : g.completeTailReclaim j.ring = .ok (g', ring')) :
      Effect j .reclaimTail { j.withMutation none with ring := ring', settling := false }
        (.result (.ok ()))

/-- The flags of a journal and the phase of its mutation agree. -/
structure Coherent (j : Journal) : Prop where
  writing : ∀ g, j.source.mutation = some g → g.dataRequest ≠ none → g.phase = .prepared
  submitted : j.source.checkpointSubmitted = true →
    ∃ g, j.source.mutation = some g ∧ g.phase = .checkpointPending
  settling : j.settling = true →
    ∃ g, j.source.mutation = some g ∧ g.phase = .tailReclaimPending

variable {j : Journal} {c : JournalCall}

lemma withMutation_self {o : Option MutationHandle} (h : j.source.mutation = o) :
    j.withMutation o = j := by
  subst h
  rfl

lemma effect_planData (h : j.Coherent) (r : BackendPageRequest) :
    Effect j (.planData r) (j.planData r).1 (j.planData r).2 := by
  rw [planData]
  split
  · exact .quiet id rfl
  split
  · exact .quiet id rfl
  rcases hs : j.source.mutation with _ | g
  · exact .quiet id rfl
  obtain ⟨graph, hphase, hreq, hp⟩ | hp := prepareData_cases g r.id (h.writing g hs)
  · simp only [hp]
    exact .data r hs hphase hreq
  · simp only [hp, withMutation_self hs]
    exact .quiet id rfl

lemma effect_completeData (c : BackendPageCompletion) :
    Effect j (.completeData c) (j.completeData c) .unit := by
  rw [completeData]
  split
  · exact .quiet (fun h => absurd h.1 ‹_›) rfl
  rename_i hop
  rw [not_not] at hop
  rcases hs : j.source.mutation with _ | g
  · exact .quiet (by simp [InFlight, hs]) rfl
  by_cases hreq : g.dataRequest = some c.id
  · rcases hres : c.result with _ | e
    · simpa [MutationHandle.completeData, hreq, settle, withMutation] using
        Effect.dataDone hop hs hreq hres
    · simpa [MutationHandle.completeData, hreq] using Effect.dataFailed hop hs hreq hres
  · simp only [MutationHandle.completeData, ne_eq, hreq, not_false_eq_true, if_true, settle,
      withMutation_self hs]
    exact .quiet (by simp [InFlight, hs, hreq]) rfl

lemma effect_abortUnsubmittedData (e : Errno) :
    Effect j (.abortUnsubmittedData e) (j.abortUnsubmittedData e) .unit := by
  rw [abortUnsubmittedData]
  rcases hs : j.source.mutation with _ | g
  · exact .quiet id rfl
  simp only [MutationHandle.abortUnsubmittedData]
  split
  · simp only [settle, withMutation_self hs]
    exact .quiet id rfl
  rename_i hopen
  rw [not_or, not_not, not_isSome_iff_eq_none] at hopen
  exact .aborted e hs hopen.2 hopen.1

lemma effect_planFsync (r : BackendPageRequest) :
    Effect j (.planFsync r) (j.planFsync r).1 (j.planFsync r).2 := by
  rw [planFsync]
  split
  · exact .quiet id rfl
  split
  · exact .quiet id rfl
  rcases hs : j.source.mutation with _ | g
  · exact .quiet id rfl
  obtain ⟨graph, hphase, hreq, hp⟩ | hp := prepareCommit_cases g r.id
  · simp only [hp]
    exact .commit r hs hphase hreq
  · simp only [hp, withMutation_self hs]
    exact .quiet id rfl

lemma effect_completeFsync (c : BackendPageCompletion) :
    Effect j (.completeFsync c) (j.completeFsync c) .unit := by
  rw [completeFsync]
  split
  · exact .quiet (fun h => absurd h.1 ‹_›) rfl
  rename_i hop
  rw [not_not] at hop
  rcases hs : j.source.mutation with _ | g
  · exact .quiet (by simp [InFlight, hs]) rfl
  simp only [MutationHandle.completeCommit]
  split
  · simp only [settle, withMutation_self hs]
    refine .quiet ?_ rfl
    simp only [InFlight, hs, some_inj, exists_eq_left', not_and]
    tauto
  rename_i hopen
  simp only [not_or, not_not] at hopen
  rcases hres : c.result with _ | e
  · exact .commitDone hop hs hopen.1 hopen.2 hres
  · exact .commitFailed hop hs hopen.1 hopen.2 hres

lemma effect_commitUnknown (r : ℕ) (e : Errno) :
    Effect j (.commitUnknown r e) (j.commitUnknown r e) .unit := by
  rw [commitUnknown]
  rcases hs : j.source.mutation with _ | g
  · exact .quiet (by simp [InFlight, hs]) rfl
  by_cases hopen : g.phase ≠ .commitPending ∨ g.commitRequest ≠ some r
  · simp only [MutationHandle.commitUnknown, if_pos hopen, withMutation_self hs]
    refine .quiet ?_ rfl
    simp only [InFlight, hs, some_inj, exists_eq_left', not_and_or]
    exact hopen
  · simp only [MutationHandle.commitUnknown, if_neg hopen]
    simp only [not_or, not_not] at hopen
    exact .commitUnknown e hs hopen.1 hopen.2

lemma effect_takeCheckpointGraph :
    Effect j .takeCheckpointGraph j.takeCheckpointGraph.1 j.takeCheckpointGraph.2 := by
  rw [takeCheckpointGraph]
  split
  · exact .quiet id rfl
  rename_i hsub
  rw [Bool.not_eq_true] at hsub
  rcases hs : j.source.mutation with _ | g
  · exact .quiet id rfl
  obtain ⟨graph, hphase, hp⟩ | hp | hp := prepareCheckpoint_cases g
  · simp only [hp]
    exact .checkpoint hs hphase
  · have hself : { j with source := { j.source with
        mutation := some g, checkpointSubmitted := false } } = j := by rw [← hs, ← hsub]
    simp only [hp, isSome_none, hself]
    exact .quiet id rfl
  · simp only [hp, withMutation_self hs]
    exact .quiet id rfl

lemma effect_completeCheckpoint (h : j.Coherent) (r : Except Errno Unit) :
    Effect j (.completeCheckpoint r) (j.completeCheckpoint r).1 (j.completeCheckpoint r).2 := by
  rcases hsub : j.source.checkpointSubmitted with _ | _
  · simp only [completeCheckpoint, hsub, Bool.false_eq_true, if_false]
    exact .quiet (by simp [InFlight, hsub]) rfl
  obtain ⟨g, hs, hphase⟩ := h.submitted hsub
  rcases r with e | ⟨⟨⟩⟩
  · simpa [completeCheckpoint, hsub, hs, MutationHandle.completeCheckpoint, hphase, withMutation]
      using Effect.checkpointFailed e hs hphase
  · simpa [completeCheckpoint, hsub, hs, MutationHandle.completeCheckpoint, hphase, withMutation]
      using Effect.checkpointDone hs hphase

lemma effect_reclaimTail (h : j.Coherent) :
    Effect j .reclaimTail j.reclaimTail.1 j.reclaimTail.2 := by
  rw [reclaimTail]
  split
  · rename_i hset
    obtain ⟨g, hs, hphase⟩ := h.settling hset
    rcases hc : g.completeTailReclaim j.ring with e | ⟨g', ring'⟩
    · simpa [hs, hc] using Effect.reclaimFailed hs hphase hset hc
    · simpa [hs, hc, withMutation] using Effect.reclaimed hs hphase hset hc
  · exact .quiet ‹_› rfl

/-- **What a callback can do**, in one statement for all that follows. -/
lemma effect_step (h : j.Coherent) (hc : c.IsCallback) : Effect j c (j.step c).1 (j.step c).2 := by
  cases c with
  | reserve | abandon | begin => exact hc.elim
  | planData r => exact effect_planData h r
  | completeData c => exact effect_completeData c
  | abortUnsubmittedData e => exact effect_abortUnsubmittedData e
  | planFsync r => exact effect_planFsync r
  | completeFsync c => exact effect_completeFsync c
  | commitUnknown r e => exact effect_commitUnknown r e
  | takeCheckpointGraph => exact effect_takeCheckpointGraph
  | completeCheckpoint r => exact effect_completeCheckpoint h r
  | reclaimTail => exact effect_reclaimTail h

lemma coherent_of_none (hs : j.source.mutation = none)
    (hsub : j.source.checkpointSubmitted = false) (hset : j.settling = false) : j.Coherent :=
  ⟨by simp [hs], by simp [hsub], by simp [hset]⟩

section

variable {g : MutationHandle} (hs : j.source.mutation = some g)

include hs

lemma coherent_of_some (hwriting : g.dataRequest ≠ none → g.phase = .prepared)
    (hsubmitted : j.source.checkpointSubmitted = true → g.phase = .checkpointPending)
    (hsettling : j.settling = true → g.phase = .tailReclaimPending) : j.Coherent :=
  ⟨fun g' hs' => by rwa [← Option.some.inj (hs.symm.trans hs')], fun h => ⟨g, hs, hsubmitted h⟩,
    fun h => ⟨g, hs, hsettling h⟩⟩

lemma Coherent.not_submitted (h : j.Coherent) (hphase : g.phase ≠ .checkpointPending) :
    j.source.checkpointSubmitted = false := by
  by_contra hsub
  obtain ⟨g', hs', hphase'⟩ := h.submitted (by simpa using hsub)
  exact hphase (Option.some.inj (hs.symm.trans hs') ▸ hphase')

lemma Coherent.not_settling (h : j.Coherent) (hphase : g.phase ≠ .tailReclaimPending) :
    j.settling = false := by
  by_contra hset
  obtain ⟨g', hs', hphase'⟩ := h.settling (by simpa using hset)
  exact hphase (Option.some.inj (hs.symm.trans hs') ▸ hphase')

lemma Coherent.of_dataRequest (h : j.Coherent) {r : ℕ} (hreq : g.dataRequest = some r) :
    g.phase = .prepared :=
  h.writing g hs (by simp [hreq])

lemma Coherent.dataRequest_eq_none (h : j.Coherent) (hphase : g.phase ≠ .prepared) :
    g.dataRequest = none :=
  not_not.mp fun hreq => hphase (h.writing g hs hreq)

end

/-- The phase of the mutation says which of the flags can be set. -/
lemma coherent_effect (h : j.Coherent) {j' : Journal} {a : JournalAnswer} (he : Effect j c j' a) :
    j'.Coherent := by
  cases he with
  | quiet => exact h
  | data r hs hphase =>
    have hsub := h.not_submitted hs (by rcases hphase with hp | hp <;> simp [hp])
    have hset := h.not_settling hs (by rcases hphase with hp | hp <;> simp [hp])
    exact coherent_of_some rfl (fun _ => rfl) (by simp [withMutation, hsub])
      (by simp [withMutation, hset])
  | dataDone hop hs hreq =>
    have hphase := h.of_dataRequest hs hreq
    exact coherent_of_some rfl (fun _ => hphase)
      (by simp [withMutation, h.not_submitted hs (by simp [hphase])])
      (by simp [withMutation, h.not_settling hs (by simp [hphase])])
  | dataFailed hop hs hreq =>
    have hphase := h.of_dataRequest hs hreq
    have hsub := h.not_submitted hs (by simp [hphase])
    have hset := h.not_settling hs (by simp [hphase])
    exact coherent_of_none rfl hsub hset
  | aborted e hs hphase =>
    have hsub := h.not_submitted hs (by rcases hphase with hp | hp <;> simp [hp])
    have hset := h.not_settling hs (by rcases hphase with hp | hp <;> simp [hp])
    exact coherent_of_none rfl hsub hset
  | commit r hs hphase hreq =>
    exact coherent_of_some rfl (by simp [hreq])
      (by simp [withMutation, h.not_submitted hs (by simp [hphase])])
      (by simp [withMutation, h.not_settling hs (by simp [hphase])])
  | commitDone hop hs hphase =>
    exact coherent_of_some rfl (by simp [h.dataRequest_eq_none hs (by simp [hphase])])
      (by simp [withMutation, h.not_submitted hs (by simp [hphase])])
      (by simp [withMutation, h.not_settling hs (by simp [hphase])])
  | commitFailed hop hs hphase =>
    have hsub := h.not_submitted hs (by simp [hphase])
    have hset := h.not_settling hs (by simp [hphase])
    exact coherent_of_none rfl hsub hset
  | commitUnknown e hs hphase =>
    exact coherent_of_some rfl (by simp [h.dataRequest_eq_none hs (by simp [hphase])])
      (by simp [h.not_submitted hs (by simp [hphase])])
      (by simp [h.not_settling hs (by simp [hphase])])
  | checkpoint hs hphase =>
    exact coherent_of_some rfl (by simp [h.dataRequest_eq_none hs (by simp [hphase])])
      (fun _ => rfl) (by simp [h.not_settling hs (by simp [hphase])])
  | checkpointFailed e hs hphase =>
    exact coherent_of_some rfl (by simp [h.dataRequest_eq_none hs (by simp [hphase])]) (by simp)
      (by simp [h.not_settling hs (by simp [hphase])])
  | checkpointDone hs hphase =>
    exact coherent_of_some rfl (by simp [h.dataRequest_eq_none hs (by simp [hphase])]) (by simp)
      fun _ => rfl
  | reclaimFailed hs => exact ⟨h.writing, h.submitted, by simp⟩
  | reclaimed hs hphase =>
    have hsub := h.not_submitted hs (by simp [hphase])
    exact coherent_of_none rfl hsub rfl

end Journal

end TxKernel.Ext4
