import Mathlib.Logic.Function.Basic
import TxKernel.Block.Queue

/-!
The submission manager in front of the block queue, one step for each hold of its lock. A page
action is submitted first and recorded later; in between, the requests that took its plans are held
back.
-/

namespace TxKernel.Block

structure PageIoRequest where
  id : ℕ
  deriving DecidableEq

/-! ### Actions and receipts -/

inductive PageL6ActionKind
  | pageBios
  | metadataFirst
  | graphReady
  deriving DecidableEq

structure PageL6Action where
  id : ℕ
  kind : PageL6ActionKind
  bios : List BioPlan
  deriving DecidableEq

structure PageL6SubmitFailure where
  failedIndex : ℕ
  error : QueueError
  deriving DecidableEq

structure PageL6Receipt where
  id : ℕ
  submitted : List SubmitOutcome
  failure : Option PageL6SubmitFailure
  deriving DecidableEq

inductive PageServiceBackendSubmitOutcome
  | blockBiosQueued (request : PageIoRequest) (submitted : List SubmitOutcome)
  | blockGraphQueued (request : PageIoRequest) (submitted : List SubmitOutcome)
  | metadataFirstQueued (request : PageIoRequest) (submitted : List SubmitOutcome)
  | err (request : PageIoRequest) (errno : Errno)
  deriving DecidableEq

def queueErrorErrno : QueueError → Errno
  | .emptyRange => .einval
  | .full | .dispatchDepthFull => .eagain

/-- The outcome that the page service makes of a receipt. A failure shows only when nothing was
accepted; a graph with an accepted node is not finished. -/
def applyL6Receipt (kind : PageL6ActionKind) (request : PageIoRequest) (receipt : PageL6Receipt) :
    PageServiceBackendSubmitOutcome :=
  match receipt.failure, receipt.submitted with
  | some failure, [] => .err request (queueErrorErrno failure.error)
  | _, submitted =>
    match kind with
    | .pageBios => .blockBiosQueued request submitted
    | .metadataFirst => .metadataFirstQueued request submitted
    | .graphReady => .blockGraphQueued request submitted

def pageActionSubmitOutcomes : PageServiceBackendSubmitOutcome → List SubmitOutcome
  | .blockBiosQueued _ submitted => submitted
  | .metadataFirstQueued _ submitted => submitted
  | .blockGraphQueued _ submitted => submitted
  | .err _ _ => []

/-! ### Routes -/

structure BlockPageRequestTracker where
  pending : ℕ → Option (List PageIoRequest)

namespace BlockPageRequestTracker

def new : BlockPageRequestTracker := ⟨fun _ => none⟩

def routes (t : BlockPageRequestTracker) (id : ℕ) : List PageIoRequest := (t.pending id).getD []

def record (t : BlockPageRequestTracker) (request : PageIoRequest) (outcome : SubmitOutcome) :
    BlockPageRequestTracker :=
  ⟨Function.update t.pending outcome.id (some (t.routes outcome.id ++ [request]))⟩

def recordSubmitOutcomes (t : BlockPageRequestTracker) (request : PageIoRequest)
    (outcomes : List SubmitOutcome) : BlockPageRequestTracker :=
  outcomes.foldl (fun t outcome => t.record request outcome) t

def complete (t : BlockPageRequestTracker) (id : ℕ) :
    Option (List PageIoRequest × BlockPageRequestTracker) :=
  (t.pending id).map fun requests => (requests, ⟨Function.update t.pending id none⟩)

end BlockPageRequestTracker

structure DirectIoBlockTracker where
  pending : ℕ → Option (List ℕ)

namespace DirectIoBlockTracker

def new : DirectIoBlockTracker := ⟨fun _ => none⟩

def record (t : DirectIoBlockTracker) (lease : ℕ) (outcome : SubmitOutcome) :
    DirectIoBlockTracker :=
  let leases := (t.pending outcome.id).getD []
  ⟨Function.update t.pending outcome.id
    (some (if leases.contains lease then leases else leases ++ [lease]))⟩

def complete (t : DirectIoBlockTracker) (completion : BlockCompletion) :
    List (ℕ × Except Errno Unit) × DirectIoBlockTracker :=
  (((t.pending completion.id).getD []).map fun lease => (lease, completion.result),
    ⟨Function.update t.pending completion.id none⟩)

end DirectIoBlockTracker

/-! ### The manager -/

structure BlockSubmissionState where
  service : BlockService
  tracker : BlockPageRequestTracker
  directTracker : DirectIoBlockTracker

structure BlockManagerCompletionReceipt where
  block : BlockCompletion
  page : List PageIoRequest
  direct : List (ℕ × Except Errno Unit)

/-- Submit plans one by one and hold back each request that takes one, up to the first failure. -/
def submitEach (q : BlockQueue) (index : ℕ) :
    List BioPlan → BlockQueue × List SubmitOutcome × Option PageL6SubmitFailure
  | [] => (q, [], none)
  | plan :: plans =>
    match q.submit plan with
    | (q, .ok outcome) =>
      let (q, submitted, failure) := submitEach (q.blockDispatch outcome.id) (index + 1) plans
      (q, outcome :: submitted, failure)
    | (q, .error error) => (q, [], some ⟨index, error⟩)

namespace BlockSubmissionState

def new (maxPending queueDepth : ℕ) : BlockSubmissionState :=
  ⟨.new maxPending queueDepth, .new, .new⟩

def submitDirect (s : BlockSubmissionState) (lease : ℕ) (plan : BioPlan) :
    BlockSubmissionState × Except QueueError SubmitOutcome :=
  match s.service.queue.submit plan with
  | (queue, .ok outcome) =>
    ({ s with
        service := { s.service with queue }
        directTracker := s.directTracker.record lease outcome }, .ok outcome)
  | (queue, .error error) => ({ s with service := { s.service with queue } }, .error error)

def submitPageAction (s : BlockSubmissionState) (action : PageL6Action) :
    BlockSubmissionState × PageL6Receipt :=
  let (queue, submitted, failure) := submitEach s.service.queue 0 action.bios
  ({ s with service := { s.service with queue } }, ⟨action.id, submitted, failure⟩)

def recordPageOutcome (s : BlockSubmissionState) (outcome : PageServiceBackendSubmitOutcome) :
    BlockSubmissionState :=
  { s with
    tracker :=
      match outcome with
      | .blockBiosQueued request submitted => s.tracker.recordSubmitOutcomes request submitted
      | _ => s.tracker
    service :=
      { s.service with
        queue := (pageActionSubmitOutcomes outcome).foldl
          (fun q outcome => q.unblockDispatch outcome.id) s.service.queue } }

def drive (s : BlockSubmissionState) (budget : ℕ) : BlockSubmissionState × BlockServiceStep :=
  let (service, step) := s.service.driveBlockTurn budget
  ({ s with service }, step)

def completeReceipt (s : BlockSubmissionState) (tag : ℕ) (result : Except Errno Unit) :
    BlockSubmissionState × Except BlockCompletionError BlockManagerCompletionReceipt :=
  match s.service.tags.complete s.service.depth tag result with
  | .error e => (s, .error e)
  | .ok (block, depth, tags) =>
    let (direct, directTracker) := s.directTracker.complete block
    let service := { s.service with depth, tags }
    match s.tracker.complete block.id with
    | none => ({ s with service, directTracker }, .ok ⟨block, [], direct⟩)
    | some (page, tracker) => (⟨service, tracker, directTracker⟩, .ok ⟨block, page, direct⟩)

end BlockSubmissionState

end TxKernel.Block
