import Mathlib.Algebra.Group.Nat.Defs
import Mathlib.Data.List.Basic

/-!
The block submission queue: plans for one device range each, merged with the request at the back or
the front where they adjoin it, and dispatched from the front. A fence waits until nothing is in
flight, and nothing is dispatched while a fence is.
-/

namespace TxKernel.Block

open List

def u64Limit : ℕ := 2 ^ 64

def checkedAdd (a b : ℕ) : Option ℕ := if a + b < u64Limit then some (a + b) else none

def saturatingAdd (a b : ℕ) : ℕ := min (a + b) (u64Limit - 1)

/-- Step a counter that skips zero when it wraps: `wrapping_add(1).max(1)`. -/
def nextCounter (n : ℕ) : ℕ := max ((n + 1) % u64Limit) 1

inductive Errno
  | eagain
  | einval
  | other (code : ℕ)
  deriving DecidableEq

/-! ### Plans -/

structure LbaRange where
  startLba : ℕ
  blockCount : ℕ
  deriving DecidableEq

namespace LbaRange

def endLba (r : LbaRange) : Option ℕ := checkedAdd r.startLba r.blockCount

def isEmpty (r : LbaRange) : Bool := r.blockCount == 0

def extendBy (r other : LbaRange) : Option LbaRange :=
  if r.endLba = some other.startLba then
    some { r with blockCount := saturatingAdd r.blockCount other.blockCount }
  else none

def prependBy (r other : LbaRange) : Option LbaRange :=
  if other.endLba = some r.startLba then
    some ⟨other.startLba, saturatingAdd r.blockCount other.blockCount⟩
  else none

end LbaRange

inductive BlockOp
  | read
  | write
  | flush
  | barrier
  deriving DecidableEq

def BlockOp.isFence : BlockOp → Bool
  | .flush | .barrier => true
  | .read | .write => false

structure BlockFlags where
  bits : ℕ
  deriving DecidableEq

namespace BlockFlags

def empty : BlockFlags := ⟨0⟩
def fua : BlockFlags := ⟨1⟩
def flush : BlockFlags := ⟨2⟩
def barrier : BlockFlags := ⟨4⟩

def contains (f other : BlockFlags) : Bool := f.bits &&& other.bits == other.bits

end BlockFlags

structure BioVec where
  bufferKey : ℕ
  offset : ℕ
  len : ℕ
  deriving DecidableEq

structure BioPlan where
  device : ℕ
  op : BlockOp
  lba : LbaRange
  vecs : List BioVec
  flags : BlockFlags
  deriving DecidableEq

namespace BioPlan

def requiresFence (p : BioPlan) : Bool :=
  p.op.isFence || p.flags.contains .barrier || p.flags.contains .flush

def sameTransfer (p q : BioPlan) : Bool :=
  match p.op, q.op with
  | .read, .read | .write, .write => true
  | _, _ => false

def canMergeWith (p other : BioPlan) : Bool :=
  !p.requiresFence && !other.requiresFence && p.sameTransfer other
    && p.device == other.device && p.flags == other.flags
    && p.lba.endLba == some other.lba.startLba

def mergeAdjacent (p other : BioPlan) : Option BioPlan :=
  if p.canMergeWith other then
    (p.lba.extendBy other.lba).map fun lba => { p with lba, vecs := p.vecs ++ other.vecs }
  else none

def prependAdjacent (p other : BioPlan) : Option BioPlan :=
  if other.requiresFence || p.requiresFence || !p.sameTransfer other
      || p.device != other.device || p.flags != other.flags then none
  else (p.lba.prependBy other.lba).map fun lba => { p with lba, vecs := other.vecs ++ p.vecs }

end BioPlan

structure Bio where
  id : ℕ
  plan : BioPlan
  deriving DecidableEq

/-! ### Depth and tags -/

structure QueueDepth where
  limit : ℕ
  inFlight : ℕ
  deriving DecidableEq

namespace QueueDepth

def new (limit : ℕ) : QueueDepth := ⟨limit, 0⟩

def hasCapacity (d : QueueDepth) : Bool := d.inFlight < d.limit

def tryStart (d : QueueDepth) : Option QueueDepth :=
  if d.hasCapacity then some { d with inFlight := d.inFlight + 1 } else none

def completeOne (d : QueueDepth) : Option QueueDepth :=
  if d.inFlight = 0 then none else some { d with inFlight := d.inFlight - 1 }

end QueueDepth

structure BlockDispatch where
  tag : ℕ
  bio : Bio
  deriving DecidableEq

structure BlockCompletion where
  tag : ℕ
  id : ℕ
  plan : BioPlan
  result : Except Errno Unit

inductive BlockCompletionError
  | unknownTag (tag : ℕ)
  | depthUnderflow (tag : ℕ)
  deriving DecidableEq

structure BlockTagTable where
  nextTag : ℕ
  inFlight : List BlockDispatch
  deriving DecidableEq

def swapRemove {α : Type*} (l : List α) (i : ℕ) : List α :=
  match l.getLast? with
  | none => []
  | some last => (l.set i last).dropLast

namespace BlockTagTable

def new : BlockTagTable := ⟨1, []⟩

def isEmpty (t : BlockTagTable) : Bool := t.inFlight.isEmpty

def hasFenceInFlight (t : BlockTagTable) : Bool := t.inFlight.any fun d => d.bio.plan.requiresFence

def dispatch (t : BlockTagTable) (bio : Bio) : BlockDispatch × BlockTagTable :=
  let dispatch := ⟨t.nextTag, bio⟩
  (dispatch, ⟨nextCounter t.nextTag, t.inFlight ++ [dispatch]⟩)

def complete (t : BlockTagTable) (depth : QueueDepth) (tag : ℕ) (result : Except Errno Unit) :
    Except BlockCompletionError (BlockCompletion × QueueDepth × BlockTagTable) :=
  match t.inFlight.findIdx? fun d => d.tag == tag with
  | none => .error (.unknownTag tag)
  | some index =>
    match depth.completeOne, t.inFlight[index]? with
    | some depth, some d =>
      .ok (⟨tag, d.bio.id, d.bio.plan, result⟩, depth,
        { t with inFlight := swapRemove t.inFlight index })
    | _, _ => .error (.depthUnderflow tag)

end BlockTagTable

/-! ### The queue -/

inductive QueueError
  | emptyRange
  | full
  | dispatchDepthFull
  deriving DecidableEq

inductive SubmitOutcome
  | queued (id : ℕ)
  | merged (id : ℕ)
  deriving DecidableEq

def SubmitOutcome.id : SubmitOutcome → ℕ
  | .queued id | .merged id => id

structure BlockQueue where
  nextId : ℕ
  maxPending : ℕ
  pending : List Bio
  dispatchBlocked : List ℕ
  deriving DecidableEq

def mergeBack (pending : List Bio) (plan : BioPlan) : Option (ℕ × List Bio) :=
  match pending.getLast? with
  | none => none
  | some back =>
    (back.plan.mergeAdjacent plan).map fun merged =>
      (back.id, pending.dropLast ++ [{ back with plan := merged }])

def mergeFront (pending : List Bio) (plan : BioPlan) : Option (ℕ × List Bio) :=
  match pending with
  | [] => none
  | front :: rest =>
    (front.plan.prependAdjacent plan).map fun merged =>
      (front.id, { front with plan := merged } :: rest)

namespace BlockQueue

def new (maxPending : ℕ) : BlockQueue := ⟨1, maxPending, [], []⟩

def submit (q : BlockQueue) (plan : BioPlan) : BlockQueue × Except QueueError SubmitOutcome :=
  if plan.lba.isEmpty && !plan.op.isFence then (q, .error .emptyRange)
  else
    match mergeBack q.pending plan with
    | some (id, pending) => ({ q with pending }, .ok (.merged id))
    | none =>
      match mergeFront q.pending plan with
      | some (id, pending) => ({ q with pending }, .ok (.merged id))
      | none =>
        if q.maxPending ≤ q.pending.length then (q, .error .full)
        else
          ({ q with nextId := nextCounter q.nextId, pending := q.pending ++ [⟨q.nextId, plan⟩] },
            .ok (.queued q.nextId))

/-- Hold a request back from dispatch. The held ids are a set. -/
def blockDispatch (q : BlockQueue) (id : ℕ) : BlockQueue :=
  { q with dispatchBlocked := q.dispatchBlocked.insert id }

def unblockDispatch (q : BlockQueue) (id : ℕ) : BlockQueue :=
  { q with dispatchBlocked := q.dispatchBlocked.filter (· != id) }

def canDispatchNext (q : BlockQueue) (depth : QueueDepth) : Bool :=
  match q.pending with
  | [] => false
  | front :: _ =>
    if q.dispatchBlocked.contains front.id then false
    else if front.plan.requiresFence then depth.inFlight == 0 && depth.hasCapacity
    else depth.hasCapacity

def popDispatchable (q : BlockQueue) (depth : QueueDepth) :
    BlockQueue × QueueDepth × Except QueueError (Option Bio) :=
  match q.pending with
  | [] => (q, depth, .ok none)
  | front :: rest =>
    if q.canDispatchNext depth then
      match depth.tryStart with
      | none => (q, depth, .error .dispatchDepthFull)
      | some depth => ({ q with pending := rest }, depth, .ok (some front))
    else (q, depth, .error .dispatchDepthFull)

def canDispatchNextTagged (q : BlockQueue) (depth : QueueDepth) (tags : BlockTagTable) : Bool :=
  if tags.hasFenceInFlight then false
  else
    match q.pending with
    | [] => false
    | front :: _ =>
      if q.dispatchBlocked.contains front.id then false
      else if front.plan.requiresFence then
        depth.inFlight == 0 && tags.isEmpty && depth.hasCapacity
      else depth.hasCapacity

def popDispatchableTagged (q : BlockQueue) (depth : QueueDepth) (tags : BlockTagTable) :
    BlockQueue × QueueDepth × BlockTagTable × Except QueueError (Option BlockDispatch) :=
  match q.pending with
  | [] => (q, depth, tags, .ok none)
  | front :: rest =>
    if q.canDispatchNextTagged depth tags then
      match depth.tryStart with
      | none => (q, depth, tags, .error .dispatchDepthFull)
      | some depth =>
        let (dispatch, tags) := tags.dispatch front
        ({ q with pending := rest }, depth, tags, .ok (some dispatch))
    else (q, depth, tags, .error .dispatchDepthFull)

end BlockQueue

/-! ### The queue with its depth and its tags -/

inductive BlockServiceNext
  | runnable
  | sleeping
  | waitingForCompletion
  deriving DecidableEq

structure BlockServiceStep where
  dispatches : List BlockDispatch
  next : BlockServiceNext
  deriving DecidableEq

structure BlockService where
  queue : BlockQueue
  depth : QueueDepth
  tags : BlockTagTable
  deriving DecidableEq

namespace BlockService

def new (maxPending queueDepth : ℕ) : BlockService := ⟨.new maxPending, .new queueDepth, .new⟩

def popTagged (s : BlockService) : BlockService × Except QueueError (Option BlockDispatch) :=
  let (queue, depth, tags, answer) := s.queue.popDispatchableTagged s.depth s.tags
  (⟨queue, depth, tags⟩, answer)

def dispatchWithin : ℕ → BlockService → BlockService × List BlockDispatch
  | 0, s => (s, [])
  | budget + 1, s =>
    match s.popTagged with
    | (s, .ok (some dispatch)) =>
      let (s, dispatches) := dispatchWithin budget s
      (s, dispatch :: dispatches)
    | (s, .ok none) => (s, [])
    | (s, .error _) => (s, [])

def serviceNext (s : BlockService) : BlockServiceNext :=
  if s.queue.pending.isEmpty then .sleeping
  else if s.queue.canDispatchNextTagged s.depth s.tags then .runnable
  else .waitingForCompletion

def driveBlockTurn (budget : ℕ) (s : BlockService) : BlockService × BlockServiceStep :=
  let (s, dispatches) := dispatchWithin budget s
  (s, ⟨dispatches, s.serviceNext⟩)

end BlockService

/-! ### What a submission does -/

inductive Place
  | back
  | front
  | new
  deriving DecidableEq

def placeOf (pending : List Bio) (plan : BioPlan) : Place :=
  if (mergeBack pending plan).isSome then .back
  else if (mergeFront pending plan).isSome then .front
  else .new

/-- The ways in which a queue accepts a plan. -/
inductive Accepts (q : BlockQueue) (plan : BioPlan) : Place → BlockQueue → SubmitOutcome → Prop
  | back {init : List Bio} {b : Bio} {merged : BioPlan} (hpending : q.pending = init ++ [b])
      (hmerged : b.plan.mergeAdjacent plan = some merged) :
      Accepts q plan .back { q with pending := init ++ [{ b with plan := merged }] } (.merged b.id)
  | front {b : Bio} {rest : List Bio} {merged : BioPlan} (hpending : q.pending = b :: rest)
      (hmerged : b.plan.prependAdjacent plan = some merged) :
      Accepts q plan .front { q with pending := { b with plan := merged } :: rest } (.merged b.id)
  | new :
      Accepts q plan .new
        { q with nextId := nextCounter q.nextId, pending := q.pending ++ [⟨q.nextId, plan⟩] }
        (.queued q.nextId)

variable {pending : List Bio} {plan : BioPlan} {r : ℕ × List Bio}

lemma mergeBack_eq_some (h : mergeBack pending plan = some r) :
    ∃ init b merged, pending = init ++ [b] ∧ b.plan.mergeAdjacent plan = some merged ∧
      r = (b.id, init ++ [{ b with plan := merged }]) := by
  unfold mergeBack at h
  split at h
  · cases h
  rename_i b hb
  obtain ⟨merged, hmerged, rfl⟩ := Option.map_eq_some_iff.mp h
  obtain ⟨init, rfl⟩ := getLast?_eq_some_iff.mp hb
  exact ⟨init, b, merged, rfl, hmerged, by simp⟩

lemma mergeFront_eq_some (h : mergeFront pending plan = some r) :
    ∃ b rest merged, pending = b :: rest ∧ b.plan.prependAdjacent plan = some merged ∧
      r = (b.id, { b with plan := merged } :: rest) := by
  unfold mergeFront at h
  split at h
  · cases h
  rename_i b rest
  obtain ⟨merged, hmerged, rfl⟩ := Option.map_eq_some_iff.mp h
  exact ⟨b, rest, merged, rfl, hmerged, rfl⟩

namespace BlockQueue

lemma submit_cases (q : BlockQueue) (plan : BioPlan) :
    (∃ e, q.submit plan = (q, .error e)) ∨
      ∃ q' o, q.submit plan = (q', .ok o) ∧ Accepts q plan (placeOf q.pending plan) q' o := by
  by_cases hempty : (plan.lba.isEmpty && !plan.op.isFence) = true
  · exact .inl ⟨.emptyRange, by simp only [submit, hempty, if_true]⟩
  rcases hb : mergeBack q.pending plan with _ | r
  · rcases hf : mergeFront q.pending plan with _ | r
    · by_cases hfull : q.maxPending ≤ q.pending.length
      · exact .inl ⟨.full, by simp only [submit, hempty, hb, hf, hfull, if_true, if_false,
          Bool.false_eq_true]⟩
      refine .inr ⟨_, _, by simp only [submit, hempty, hb, hf, hfull, if_false,
        Bool.false_eq_true]; rfl, ?_⟩
      simpa [placeOf, hb, hf] using Accepts.new
    · obtain ⟨b, rest, merged, hpending, hmerged, rfl⟩ := mergeFront_eq_some hf
      refine .inr ⟨_, _, by simp only [submit, hempty, hb, hf, if_false, Bool.false_eq_true]; rfl,
        ?_⟩
      simpa [placeOf, hb, hf] using Accepts.front hpending hmerged
  · obtain ⟨init, b, merged, hpending, hmerged, rfl⟩ := mergeBack_eq_some hb
    refine .inr ⟨_, _, by simp only [submit, hempty, hb, if_false, Bool.false_eq_true]; rfl, ?_⟩
    simpa [placeOf, hb] using Accepts.back hpending hmerged

end BlockQueue

/-! ### What a dispatch does -/

/-- Requests that are not held were taken from the front of a queue. -/
structure Took (q q' : BlockQueue) (taken : List Bio) : Prop where
  pending : q.pending = taken ++ q'.pending
  nextId : q'.nextId = q.nextId
  maxPending : q'.maxPending = q.maxPending
  dispatchBlocked : q'.dispatchBlocked = q.dispatchBlocked
  free : ∀ b ∈ taken, b.id ∉ q.dispatchBlocked

lemma Took.none (q : BlockQueue) : Took q q [] := ⟨rfl, rfl, rfl, rfl, by simp⟩

variable {q : BlockQueue}

lemma Took.trans {q' q'' : BlockQueue} {taken taken' : List Bio} (h : Took q q' taken)
    (h' : Took q' q'' taken') : Took q q'' (taken ++ taken') where
  pending := by rw [h.pending, h'.pending, append_assoc]
  nextId := h'.nextId.trans h.nextId
  maxPending := h'.maxPending.trans h.maxPending
  dispatchBlocked := h'.dispatchBlocked.trans h.dispatchBlocked
  free b hb := by
    rcases mem_append.mp hb with hb | hb
    · exact h.free b hb
    · exact h.dispatchBlocked ▸ h'.free b hb

variable {rest : List Bio} {front : Bio}

lemma Took.one (hpending : q.pending = front :: rest) (hfree : front.id ∉ q.dispatchBlocked) :
    Took q { q with pending := rest } [front] := by
  refine ⟨hpending, rfl, rfl, rfl, ?_⟩
  intro b hb
  rwa [mem_singleton.mp hb]

namespace BlockQueue

variable {q : BlockQueue} {depth : QueueDepth} {tags : BlockTagTable}

def popped : Except QueueError (Option Bio) → List Bio
  | .ok (some b) => [b]
  | _ => []

lemma took_popDispatchable (q : BlockQueue) (depth : QueueDepth) :
    Took q (q.popDispatchable depth).1 (popped (q.popDispatchable depth).2.2) := by
  rcases hpending : q.pending with _ | ⟨front, rest⟩
  · simpa [popDispatchable, hpending, popped] using Took.none q
  by_cases hcan : q.canDispatchNext depth = true
  · rcases hstart : depth.tryStart with _ | depth'
    · simpa [popDispatchable, hpending, hcan, hstart, popped] using Took.none q
    have hfree : front.id ∉ q.dispatchBlocked := fun hheld => by
      simp [canDispatchNext, hpending, hheld] at hcan
    simpa [popDispatchable, hpending, hcan, hstart, popped] using Took.one hpending hfree
  · simpa [popDispatchable, hpending, hcan, popped] using Took.none q

end BlockQueue

namespace BlockService

/-- The requests that a service dispatched: taken from its queue and now in flight. -/
structure Dispatched (s s' : BlockService) (dispatches : List BlockDispatch) : Prop where
  took : Took s.queue s'.queue (dispatches.map (·.bio))
  inFlight : s'.tags.inFlight = s.tags.inFlight ++ dispatches

lemma Dispatched.none (s : BlockService) : Dispatched s s [] := ⟨Took.none _, by simp⟩

def poppedTagged : Except QueueError (Option BlockDispatch) → List BlockDispatch
  | .ok (some d) => [d]
  | _ => []

lemma dispatched_popTagged (s : BlockService) :
    Dispatched s s.popTagged.1 (poppedTagged s.popTagged.2) := by
  obtain ⟨q, depth, tags⟩ := s
  rcases hpending : q.pending with _ | ⟨front, rest⟩
  · simpa [popTagged, BlockQueue.popDispatchableTagged, hpending, poppedTagged] using
      Dispatched.none ⟨q, depth, tags⟩
  by_cases hcan : q.canDispatchNextTagged depth tags = true
  · rcases hstart : depth.tryStart with _ | depth'
    · simpa [popTagged, BlockQueue.popDispatchableTagged, hpending, hcan, hstart, poppedTagged]
        using Dispatched.none ⟨q, depth, tags⟩
    have hfree : front.id ∉ q.dispatchBlocked := fun hheld => by
      simp [BlockQueue.canDispatchNextTagged, hpending, hheld] at hcan
    simp only [popTagged, BlockQueue.popDispatchableTagged, hpending, hcan, hstart, poppedTagged,
      if_true]
    exact ⟨Took.one hpending hfree, rfl⟩
  · simpa [popTagged, BlockQueue.popDispatchableTagged, hpending, hcan, poppedTagged] using
      Dispatched.none ⟨q, depth, tags⟩

lemma dispatched_dispatchWithin (budget : ℕ) (s : BlockService) :
    Dispatched s (dispatchWithin budget s).1 (dispatchWithin budget s).2 := by
  induction budget generalizing s with
  | zero => exact Dispatched.none s
  | succ budget ih =>
    have hpop := dispatched_popTagged s
    rcases hp : s.popTagged with ⟨s', _ | (_ | d)⟩ <;>
      simp only [dispatchWithin, hp, poppedTagged] at hpop ⊢
    · exact hpop
    · exact hpop
    have hrest := ih s'
    exact ⟨hpop.took.trans hrest.took, by rw [hrest.inFlight, hpop.inFlight]; simp⟩

end BlockService

end TxKernel.Block
