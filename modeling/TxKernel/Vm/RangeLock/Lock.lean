import TxKernel.Vm.RangeLock.Table

/-!
The range lock: active reservations, pending writers, and the operations on them. A `none` is a
panic inside an interval tree. The wait source that a release fires is left out; its generation is
kept.
-/

namespace TxKernel.Vm

structure RangeGuard where
  id : ℕ
  range : UserRange
  deriving Repr, DecidableEq

structure PendingWriter where
  id : ℕ
  range : UserRange
  deriving Repr, DecidableEq

structure WouldBlock where
  pendingWriter : Option PendingWriter
  observedRelease : ℕ
  deriving Repr, DecidableEq

inductive AcquireResult
  | acquired (guard : RangeGuard)
  | wouldBlock (blocked : WouldBlock)
  deriving Repr, DecidableEq

inductive AcquirePairResult
  | acquired (first second : RangeGuard)
  | wouldBlock (blocked : WouldBlock)
  deriving Repr, DecidableEq

def maxActiveRanges : ℕ := 16

def maxPendingWriters : ℕ := 16

structure RangeLockState where
  active : ReservationIntervalTree
  pendingWriters : ReservationIntervalTree
  nextId : ℕ
  deriving Repr, DecidableEq

namespace RangeLockState

def new : RangeLockState := ⟨.new maxActiveRanges, .new maxPendingWriters, 1⟩

variable (s : RangeLockState)

def materializerBlocked (range : UserRange) : Option Bool := do
  let active ← s.active.anyOverlapWhere range fun _ => true
  if active then return true
  else s.pendingWriters.anyOverlapWhere range fun _ => true

def writerBlocked (range : UserRange) (ownPendingId : Option ℕ) : Option Bool := do
  let active ← s.active.anyOverlapWhere range fun _ => true
  if active then return true
  else
    let first ← s.pendingWriters.minOverlapIdWhere range fun _ => true
    match first, ownPendingId with
    | some firstPendingId, some ownId => return firstPendingId < ownId
    | some _, none => return true
    | none, _ => return false

def singleBlockedByPair (current other : UserRange × LockMode) : Option Bool := do
  let blocked ← match current.2 with
    | .materializer => s.materializerBlocked current.1
    | .exclusiveWriter => s.writerBlocked current.1 none
  return blocked || decide (current.1.overlaps other.1)

def pairBlocked (a b : UserRange × LockMode) : Option Bool := do
  let first ← s.singleBlockedByPair a b
  if first then return true
  else s.singleBlockedByPair b a

def idAfter (id : ℕ) : ℕ := max ((id + 1) % 2 ^ 64) 1

def takeId : ℕ × RangeLockState := (s.nextId, { s with nextId := idAfter s.nextId })

def reserveActiveSlot (range : UserRange) (mode : LockMode) :
    Option (RangeLockState × Option ℕ) := do
  let (id, s) := s.takeId
  let (active, inserted) ← s.active.insert ⟨id, range, mode⟩
  return ({ s with active := active }, if inserted then some id else none)

def releaseActive (id : ℕ) (range : UserRange) : Option RangeLockState := do
  let (active, _) ← s.active.remove id range
  return { s with active := active }

def releasePendingWriter (id : ℕ) (range : UserRange) : Option RangeLockState := do
  let (pendingWriters, _) ← s.pendingWriters.remove id range
  return { s with pendingWriters := pendingWriters }

end RangeLockState

structure RangeLock where
  state : RangeLockState
  releaseGeneration : ℕ
  deriving Repr, DecidableEq

namespace RangeLock

def new : RangeLock := ⟨.new, 0⟩

variable (lock : RangeLock)

def blocked (pendingWriter : Option PendingWriter) : WouldBlock :=
  ⟨pendingWriter, lock.releaseGeneration⟩

def acquireActive (range : UserRange) (mode : LockMode) : Option (RangeLock × AcquireResult) := do
  let (state, id) ← lock.state.reserveActiveSlot range mode
  match id with
  | some id => return ({ lock with state := state }, .acquired ⟨id, range⟩)
  | none => return ({ lock with state := state }, .wouldBlock (lock.blocked none))

def queueWriter (range : UserRange) : Option (RangeLock × AcquireResult) := do
  let (id, state) := lock.state.takeId
  let (pendingWriters, inserted) ← state.pendingWriters.insert ⟨id, range, .exclusiveWriter⟩
  let lock' := { lock with state := { state with pendingWriters := pendingWriters } }
  if inserted then return (lock', .wouldBlock (lock.blocked (some ⟨id, range⟩)))
  else return (lock', .wouldBlock (lock.blocked none))

def acquireStepRich (range : UserRange) (mode : LockMode) :
    Option (RangeLock × AcquireResult) := do
  match mode with
  | .materializer =>
    let isBlocked ← lock.state.materializerBlocked range
    if isBlocked then return (lock, .wouldBlock (lock.blocked none))
    else lock.acquireActive range mode
  | .exclusiveWriter =>
    let isBlocked ← lock.state.writerBlocked range none
    if isBlocked then lock.queueWriter range
    else lock.acquireActive range mode

def acquirePairStepRich (a b : UserRange × LockMode) :
    Option (RangeLock × AcquirePairResult) := do
  let isBlocked ← lock.state.pairBlocked a b
  if isBlocked then return (lock, .wouldBlock (lock.blocked none))
  else
    let (state, first) ← lock.state.reserveActiveSlot a.1 a.2
    let (state, second) ← state.reserveActiveSlot b.1 b.2
    match first, second with
    | some firstId, some secondId =>
      return ({ lock with state := state }, .acquired ⟨firstId, a.1⟩ ⟨secondId, b.1⟩)
    | some firstId, none =>
      let state ← state.releaseActive firstId a.1
      return ({ lock with state := state }, .wouldBlock (lock.blocked none))
    | none, _ => return ({ lock with state := state }, .wouldBlock (lock.blocked none))

def tryAcquire (pending : PendingWriter) : Option (RangeLock × AcquireResult) := do
  let isBlocked ← lock.state.writerBlocked pending.range (some pending.id)
  if isBlocked then return (lock, .wouldBlock (lock.blocked (some pending)))
  else
    let state ← lock.state.releasePendingWriter pending.id pending.range
    { lock with state := state }.acquireActive pending.range .exclusiveWriter

def releaseActive (guard : RangeGuard) : Option RangeLock := do
  let state ← lock.state.releaseActive guard.id guard.range
  return ⟨state, (lock.releaseGeneration + 1) % 2 ^ 64⟩

def releasePendingWriter (pending : PendingWriter) : Option RangeLock := do
  if pending.id ≠ 0 then
    let state ← lock.state.releasePendingWriter pending.id pending.range
    return ⟨state, (lock.releaseGeneration + 1) % 2 ^ 64⟩
  else return lock

def cancelWithoutNotify (pending : PendingWriter) : Option RangeLock := do
  if pending.id ≠ 0 then
    let state ← lock.state.releasePendingWriter pending.id pending.range
    return { lock with state := state }
  else return lock

end RangeLock

/-! ### A lock and what its callers hold -/

structure RangeLockSystem where
  lock : RangeLock
  guards : List RangeGuard
  pending : List PendingWriter
  deriving Repr, DecidableEq

/-- One call on the lock. Guards and pending writers are named by their position among those
outstanding. -/
inductive LockOp
  | acquire (range : UserRange) (mode : LockMode)
  | acquirePair (a b : UserRange × LockMode)
  | tryAcquire (i : ℕ)
  | cancel (i : ℕ) (notify : Bool)
  | dropGuard (i : ℕ)
  deriving Repr, DecidableEq

namespace RangeLockSystem

def init : RangeLockSystem := ⟨.new, [], []⟩

def afterAcquire (S : RangeLockSystem) (lock : RangeLock) : AcquireResult → RangeLockSystem
  | .acquired guard => ⟨lock, S.guards ++ [guard], S.pending⟩
  | .wouldBlock b => ⟨lock, S.guards, S.pending ++ b.pendingWriter.toList⟩

def afterPair (S : RangeLockSystem) (lock : RangeLock) : AcquirePairResult → RangeLockSystem
  | .acquired first second => ⟨lock, S.guards ++ [first, second], S.pending⟩
  | .wouldBlock _ => ⟨lock, S.guards, S.pending⟩

/-- The callers after `try_acquire` of the pending writer at `i`: it comes back in its place with a
`WouldBlock` that carries it, or it is gone. -/
def afterTry (S : RangeLockSystem) (i : ℕ) (lock : RangeLock) : AcquireResult → RangeLockSystem
  | .acquired guard => ⟨lock, S.guards ++ [guard], S.pending.eraseIdx i⟩
  | .wouldBlock ⟨some pending, _⟩ => ⟨lock, S.guards, S.pending.set i pending⟩
  | .wouldBlock ⟨none, _⟩ => ⟨lock, S.guards, S.pending.eraseIdx i⟩

def step (S : RangeLockSystem) : LockOp → Option (RangeLockSystem × Unit)
  | .acquire range mode => do
    let (lock, result) ← S.lock.acquireStepRich range mode
    return (S.afterAcquire lock result, ())
  | .acquirePair a b => do
    let (lock, result) ← S.lock.acquirePairStepRich a b
    return (S.afterPair lock result, ())
  | .tryAcquire i =>
    match S.pending[i]? with
    | none => some (S, ())
    | some pending => do
      let (lock, result) ← S.lock.tryAcquire pending
      return (S.afterTry i lock result, ())
  | .cancel i notify =>
    match S.pending[i]? with
    | none => some (S, ())
    | some pending => do
      let lock ← if notify then S.lock.releasePendingWriter pending
        else S.lock.cancelWithoutNotify pending
      return (⟨lock, S.guards, S.pending.eraseIdx i⟩, ())
  | .dropGuard i =>
    match S.guards[i]? with
    | none => some (S, ())
    | some guard => do
      let lock ← S.lock.releaseActive guard
      return (⟨lock, S.guards.eraseIdx i, S.pending⟩, ())

end RangeLockSystem

end TxKernel.Vm
