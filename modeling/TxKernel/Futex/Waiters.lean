import Mathlib.Data.List.Nodup
import TxKernel.Library.Runs
import TxKernel.Futex.Table

/-!
Wait operations, and which of them the table holds. A requeue can move the row of an operation to
another word; when the operation ends, it looks for its row under the word it was called with.
-/

namespace TxKernel.Futex

open List Function Queues Option Shards FutexWaiter

/-! ### Wait operations -/

/-- `aspace` is the address space as it was at the call; the source holds a reference, and mappings
do not change while the operation lives. -/
structure FutexWaitOp where
  uaddr : BitVec 64
  val : BitVec 32
  aspace : AddressSpace
  interestMask : BitVec 64
  tid : Option (BitVec 32)
  woken : Bool
  waiting : Bool
  registeredSourceId : Option ℕ
  isPrivate : Bool

inductive ResumeOutcome
  | retry
  | timedOut
  | interrupted
  | other
  deriving DecidableEq

namespace FutexWaitOp

def new (uaddr : BitVec 64) (val : BitVec 32) (aspace : AddressSpace) (interestMask : BitVec 64)
    (tid : Option (BitVec 32)) (isPrivate : Bool) : FutexWaitOp :=
  ⟨uaddr, val, aspace, interestMask, tid, false, false, none, isPrivate⟩

def key (op : FutexWaitOp) : Option FutexKey := keyFor op.aspace op.uaddr op.isPrivate

def unregister (op : FutexWaitOp) (s : Shards) : Shards × FutexWaitOp :=
  match op.registeredSourceId with
  | none => (s, op)
  | some sourceId =>
    (s.unregisterExactWaiter op.aspace op.uaddr op.isPrivate sourceId,
      { op with registeredSourceId := none, waiting := false })

def stillRegistered (op : FutexWaitOp) (s : Shards) : Bool :=
  op.registeredSourceId.any (s.exactWaiterRegistered op.aspace op.uaddr op.isPrivate)

end FutexWaitOp

/-- Queue a waiter if the word, read twice, holds the value. The shard is in use from the second
read on. -/
def stepFutexWait (s : Shards) (op : FutexWaitOp) (sourceId : ℕ)
    (first second : Except Errno (BitVec 32)) : Shards × Except Errno ℕ :=
  if Shards.badAddress op.uaddr || op.interestMask = 0 then (s, .error .einval)
  else
    match first with
    | .error e => (s, .error e)
    | .ok observed =>
      if observed ≠ op.val then (s, .error .eagain)
      else
        match op.key with
        | none => (s, .error .efault)
        | some key =>
          let s := s.store key (s.entry key)
          match second with
          | .error e => (s, .error e)
          | .ok observedAgain =>
            if observedAgain ≠ op.val then (s, .error .eagain)
            else (s.pushWaiters key [⟨sourceId, op.tid, op.interestMask⟩], .ok sourceId)

/-! ### The system -/

/-- The table, the next wait source, and the operations; a dropped one leaves a gap. -/
structure Kernel where
  shards : Shards
  nextSource : ℕ
  ops : List (Option FutexWaitOp)

inductive Call
  | create (uaddr : BitVec 64) (val : BitVec 32) (aspace : AddressSpace) (interestMask : BitVec 64)
    (tid : Option (BitVec 32)) (isPrivate : Bool)
  | step (i : ℕ) (first second : Except Errno (BitVec 32))
  | resume (i : ℕ) (r : ResumeOutcome)
  | drop (i : ℕ)
  | wake (aspace : AddressSpace) (uaddr : BitVec 64) (n : BitVec 32) (wakeMask : BitVec 64)
    (isPrivate : Bool)
  | requeue (aspace : AddressSpace) (uaddr uaddr2 : BitVec 64) (wakeN requeueN : BitVec 32)
    (isPrivate : Bool)

inductive Answer
  | none
  | woken
  | waits (sourceId : ℕ)
  | count (n : ℕ)
  | err (e : Errno)
  deriving DecidableEq

def Answer.ofCount : Except Errno ℕ → Answer
  | .ok n => .count n
  | .error e => .err e

namespace Kernel

def new : Kernel := ⟨fun _ => none, 1, []⟩

def op (k : Kernel) (i : ℕ) : Option FutexWaitOp := k.ops[i]?.join

def setOp (k : Kernel) (s : Shards) (i : ℕ) (op : Option FutexWaitOp) : Kernel :=
  { k with shards := s, ops := k.ops.set i op }

def register (k : Kernel) (s : Shards) (i : ℕ) (op : FutexWaitOp) (sourceId : ℕ) : Kernel :=
  { k with
    shards := s
    nextSource := k.nextSource + 1
    ops := k.ops.set i (some { op with waiting := true, registeredSourceId := some sourceId }) }

def stepOp (k : Kernel) (i : ℕ) (op : FutexWaitOp) (first second : Except Errno (BitVec 32)) :
    Kernel × Answer :=
  if op.woken then (k, .woken)
  else
    match op.registeredSourceId with
    | some sourceId => (k, .waits sourceId)
    | none =>
      match stepFutexWait k.shards op k.nextSource first second with
      | (s, .error e) => ({ k with shards := s }, .err e)
      | (s, .ok sourceId) => (k.register s i op sourceId, .waits sourceId)

def applyResume (k : Kernel) (i : ℕ) (op : FutexWaitOp) : ResumeOutcome → Kernel × Answer
  | .retry =>
    if op.stillRegistered k.shards then (k, .none)
    else
      let (s, op) := op.unregister k.shards
      (k.setOp s i (some { op with waiting := false, woken := true }), .none)
  | .timedOut =>
    let (s, op) := op.unregister k.shards
    (k.setOp s i (some op), .err .etimedout)
  | .interrupted =>
    let (s, op) := op.unregister k.shards
    (k.setOp s i (some op), .err .eintr)
  | .other => (k, .err .einval)

def step (k : Kernel) : Call → Kernel × Answer
  | .create uaddr val aspace interestMask tid isPrivate =>
    ({ k with ops := k.ops ++ [some (.new uaddr val aspace interestMask tid isPrivate)] }, .none)
  | .step i first second =>
    match k.op i with
    | none => (k, .none)
    | some op => k.stepOp i op first second
  | .resume i r =>
    match k.op i with
    | none => (k, .none)
    | some op => k.applyResume i op r
  | .drop i =>
    match k.op i with
    | none => (k, .none)
    | some op => (k.setOp (op.unregister k.shards).1 i none, .none)
  | .wake aspace uaddr n wakeMask isPrivate =>
    let r := k.shards.stepFutexWake aspace uaddr n wakeMask isPrivate
    ({ k with shards := r.1 }, .ofCount r.2)
  | .requeue aspace uaddr uaddr2 wakeN requeueN isPrivate =>
    let r := k.shards.stepFutexRequeue aspace uaddr uaddr2 wakeN requeueN isPrivate
    ({ k with shards := r.1 }, .ofCount r.2)

def sourceOf (k : Kernel) (i : ℕ) : Option ℕ := (k.op i).bind FutexWaitOp.registeredSourceId

end Kernel

/-! ### The operations that wait -/

namespace Queues

def enter (q : Queues) (op : FutexWaitOp) (sourceId : ℕ) : Queues :=
  match op.key with
  | none => q
  | some key => Function.update q key (q key ++ [⟨sourceId, op.tid, op.interestMask⟩])

def leave (q : Queues) (sourceId : ℕ) : Queues :=
  fun key => (q key).filter fun w => w.sourceId != sourceId

end Queues

/-- The system, with the operations that wait on each word. -/
structure Watched where
  kernel : Kernel
  queues : Queues

namespace Watched

def new : Watched := ⟨.new, fun _ => []⟩

/-- The operations that wait after a call: from their registration until a wake takes them or they
give up. -/
def queuesAfter (s : Watched) (k' : Kernel) : Call → Queues
  | .create _ _ _ _ _ _ => s.queues
  | .step i _ _ =>
    match s.kernel.op i, s.kernel.sourceOf i, k'.sourceOf i with
    | some op, none, some sourceId => s.queues.enter op sourceId
    | _, _, _ => s.queues
  | .resume i _ =>
    match s.kernel.sourceOf i, k'.sourceOf i with
    | some sourceId, none => s.queues.leave sourceId
    | _, _ => s.queues
  | .drop i =>
    match s.kernel.sourceOf i with
    | some sourceId => s.queues.leave sourceId
    | none => s.queues
  | .wake aspace uaddr n wakeMask isPrivate => s.queues.wake aspace uaddr n wakeMask isPrivate
  | .requeue aspace uaddr uaddr2 wakeN requeueN isPrivate =>
    s.queues.requeue aspace uaddr uaddr2 wakeN requeueN isPrivate

def step (s : Watched) (c : Call) : Watched × Answer :=
  let r := s.kernel.step c
  (⟨r.1, s.queuesAfter r.1 c⟩, r.2)

/-- The table holds exactly the operations that wait, in the order in which they were queued. -/
def Exact (s : Watched) : Prop := s.kernel.shards.rows = s.queues

/-- Nothing is queued twice. -/
structure Once (q : Queues) : Prop where
  nodup : ∀ key, ((q key).map FutexWaiter.sourceId).Nodup
  apart : ∀ key key' w w', w ∈ q key → w' ∈ q key' → w.sourceId = w'.sourceId → key = key'

/-- Every waiter is a registered operation that was not woken. -/
def Owned (s : Watched) : Prop :=
  ∀ key w, w ∈ s.queues key → ∃ i op, s.kernel.op i = some op ∧
    op.registeredSourceId = some w.sourceId ∧ op.woken = false ∧ w.tid = op.tid ∧
    w.interestMask = op.interestMask

/-- The operation waits on another word than the one it was called for. -/
def MovedAway (s : Watched) (i : ℕ) : Prop :=
  ∃ op sourceId key w, s.kernel.op i = some op ∧ op.registeredSourceId = some sourceId ∧
    w ∈ s.queues key ∧ w.sourceId = sourceId ∧ op.key ≠ some key

/-- No operation is resumed, timed out, interrupted or dropped while it waits on another word than
the one it was called for. -/
def AtHome (s : Watched) : Call → Prop
  | .resume i r => r ≠ .other → ¬ s.MovedAway i
  | .drop i => ¬ s.MovedAway i
  | _ => True

end Watched

/-! ### Queues without repetition -/

namespace Watched

namespace Once

variable {q q' : Queues}

lemma of_sublist (h : Once q) (hsub : ∀ key, (q' key).Sublist (q key)) : Once q' where
  nodup key := (h.nodup key).sublist ((hsub key).map _)
  apart key key' w w' hw hw' := h.apart key key' w w' ((hsub key).subset hw)
    ((hsub key').subset hw')

lemma of_perm (h : Once q) (hperm : ∀ key, (q' key).Perm (q key)) : Once q' where
  nodup key := ((hperm key).map _).nodup_iff.mpr (h.nodup key)
  apart key key' w w' hw hw' :=
    h.apart key key' w w' ((hperm key).mem_iff.mp hw) ((hperm key').mem_iff.mp hw')

variable {key : FutexKey} {w : FutexWaiter}

lemma not_take_drop (h : Once q) {n : ℕ} {w' : FutexWaiter} (hw : w ∈ (q key).take n)
    (hw' : w' ∈ (q key).drop n) : w.sourceId ≠ w'.sourceId := by
  have hnodup := h.nodup key
  rw [← take_append_drop n (q key), map_append, nodup_append] at hnodup
  exact hnodup.2.2 _ (mem_map_of_mem hw) _ (mem_map_of_mem hw')

end Once

variable {q : Queues} {n : ℕ}

lemma mem_move {a b key : FutexKey} (hab : a ≠ b) (h : w ∈ q.move a b n key) :
    (w ∈ q key ∧ (key = a → w ∈ (q a).drop n)) ∨ (key = b ∧ w ∈ (q a).take n) := by
  unfold move at h
  by_cases hb : key = b
  · subst hb
    rw [update_self, update_of_ne (Ne.symm hab), mem_append] at h
    rcases h with h | h
    · exact .inl ⟨h, fun ha => absurd ha.symm hab⟩
    · exact .inr ⟨rfl, h⟩
  rw [update_of_ne hb] at h
  by_cases ha : key = a
  · subst ha
    rw [update_self] at h
    exact .inl ⟨mem_of_mem_drop h, fun _ => h⟩
  · rw [update_of_ne ha] at h
    exact .inl ⟨h, fun h' => absurd h' ha⟩

lemma Once.move (h : Once q) (a b : FutexKey) (n : ℕ) : Once (q.move a b n) := by
  by_cases hab : a = b
  · -- the queue is rotated
    subst hab
    refine h.of_perm fun key => ?_
    unfold Queues.move
    by_cases hkey : key = a
    · subst hkey
      rw [update_self, update_self]
      calc (q key).drop n ++ (q key).take n
          |>.Perm ((q key).take n ++ (q key).drop n) := perm_append_comm
        _ = q key := take_append_drop n (q key)
    · rw [update_of_ne hkey, update_of_ne hkey]
  constructor
  · intro key
    unfold Queues.move
    by_cases hb : key = b
    · subst hb
      rw [update_self, update_of_ne (Ne.symm hab), map_append, nodup_append]
      refine ⟨h.nodup key, (h.nodup a).sublist ((take_sublist n _).map _), ?_⟩
      intro i hi j hj hij
      obtain ⟨w, hw, rfl⟩ := mem_map.mp hi
      obtain ⟨w', hw', rfl⟩ := mem_map.mp hj
      exact hab (h.apart a key w' w (mem_of_mem_take hw') hw hij.symm)
    · rw [update_of_ne hb]
      by_cases ha : key = a
      · subst ha
        rw [update_self]
        exact (h.nodup key).sublist ((drop_sublist n _).map _)
      · rw [update_of_ne ha]
        exact h.nodup key
  · intro key key' w w' hw hw' hsame
    rcases mem_move hab hw with ⟨hold, hstay⟩ | ⟨hb, hmoved⟩ <;>
      rcases mem_move hab hw' with ⟨hold', hstay'⟩ | ⟨hb', hmoved'⟩
    · exact h.apart key key' w w' hold hold' hsame
    · have hkey := h.apart key a w w' hold (mem_of_mem_take hmoved') hsame
      exact absurd hsame.symm (h.not_take_drop hmoved' (hstay hkey))
    · have hkey := h.apart a key' w w' (mem_of_mem_take hmoved) hold' hsame
      exact absurd hsame (h.not_take_drop hmoved (hstay' hkey.symm))
    · exact hb.trans hb'.symm

lemma wake_sublist (q : Queues) (aspace : AddressSpace) (uaddr : BitVec 64) (n : BitVec 32)
    (wakeMask : BitVec 64) (isPrivate : Bool) (key : FutexKey) :
    (q.wake aspace uaddr n wakeMask isPrivate key).Sublist (q key) := by
  unfold wake
  split_ifs
  · exact List.Sublist.refl _
  rcases keyFor aspace uaddr isPrivate with _ | key'
  · exact List.Sublist.refl _
  by_cases hkey : key = key'
  · subst hkey
    simp only [update_self]
    exact splitWoken_snd_sublist _ _ _
  · simp only [update_of_ne hkey]
    exact List.Sublist.refl _

lemma Once.requeue (h : Once q) (aspace : AddressSpace) (uaddr uaddr2 : BitVec 64)
    (wakeN requeueN : BitVec 32) (isPrivate : Bool) :
    Once (q.requeue aspace uaddr uaddr2 wakeN requeueN isPrivate) := by
  have hwake := h.of_sublist (wake_sublist q aspace uaddr wakeN futexWakeMask isPrivate)
  unfold Queues.requeue
  split_ifs
  · exact h
  split
  · exact hwake.move _ _ _
  · exact hwake

lemma exists_mem_of_move {a b key : FutexKey} (h : w ∈ q.move a b n key) : ∃ key', w ∈ q key' := by
  by_cases hab : a = b
  · subst hab
    unfold move at h
    by_cases hkey : key = a
    · subst hkey
      rw [update_self, update_self, mem_append] at h
      exact ⟨key, h.elim mem_of_mem_drop mem_of_mem_take⟩
    · rw [update_of_ne hkey, update_of_ne hkey] at h
      exact ⟨key, h⟩
  · rcases mem_move hab h with ⟨hw, -⟩ | ⟨-, hw⟩
    · exact ⟨key, hw⟩
    · exact ⟨a, mem_of_mem_take hw⟩

variable {aspace : AddressSpace} {uaddr : BitVec 64} {isPrivate : Bool}

lemma mem_requeue {uaddr2 : BitVec 64} {wakeN requeueN : BitVec 32}
    (h : w ∈ q.requeue aspace uaddr uaddr2 wakeN requeueN isPrivate key) : ∃ key', w ∈ q key' := by
  have hwake {key : FutexKey} (hw : w ∈ q.wake aspace uaddr wakeN futexWakeMask isPrivate key) :
      ∃ key', w ∈ q key' := ⟨key, (wake_sublist q _ _ _ _ _ key).subset hw⟩
  unfold requeue at h
  split_ifs at h
  · exact ⟨key, h⟩
  split at h
  · obtain ⟨key', hw⟩ := exists_mem_of_move h
    exact hwake hw
  · exact hwake h

/-! ### One call -/

/-- What every call keeps: the table is exact, and wait sources are used once. -/
structure Kept (s : Watched) : Prop where
  exact : Exact s
  once : Once s.queues
  owned : Owned s
  fresh : ∀ i sourceId, s.kernel.sourceOf i = some sourceId → sourceId < s.kernel.nextSource
  single : ∀ i j sourceId, s.kernel.sourceOf i = some sourceId →
    s.kernel.sourceOf j = some sourceId → i = j

variable {s : Watched} {k : Kernel} {i j : ℕ} {op : FutexWaitOp} {sh : Shards}
  {x : Option FutexWaitOp}

lemma Kept.rows (h : Kept s) : s.kernel.shards.rows = s.queues := h.exact

section

variable (h : k.op i = some op) (sh : Shards)
include h

lemma op_setOp (x : Option FutexWaitOp) (j : ℕ) :
    (k.setOp sh i x).op j = if j = i then x else k.op j := by
  have hi : i < k.ops.length := by
    by_contra hi
    simp [Kernel.op, getElem?_eq_none (Nat.not_lt.mp hi)] at h
  unfold Kernel.op Kernel.setOp
  split_ifs with hj
  · subst hj
    simp [hi]
  · rw [getElem?_set_ne (Ne.symm hj)]

lemma sourceOf_setOp (x : Option FutexWaitOp) (j : ℕ) :
    (k.setOp sh i x).sourceOf j =
      if j = i then x.bind FutexWaitOp.registeredSourceId else k.sourceOf j := by
  rw [Kernel.sourceOf, op_setOp h]
  split_ifs <;> rfl

lemma op_register (sourceId j : ℕ) :
    (k.register sh i op sourceId).op j =
      if j = i then some { op with waiting := true, registeredSourceId := some sourceId }
      else k.op j :=
  op_setOp h sh (some { op with waiting := true, registeredSourceId := some sourceId }) j

lemma sourceOf_register (sourceId j : ℕ) :
    (k.register sh i op sourceId).sourceOf j = if j = i then some sourceId else k.sourceOf j := by
  rw [Kernel.sourceOf, op_register h]
  split_ifs <;> rfl

end

lemma Owned.setOp (h : Owned s) (hop : s.kernel.op i = some op) (sh : Shards)
    (x : Option FutexWaitOp) (hmem : ∀ key w, w ∈ q key → ∃ key', w ∈ s.queues key')
    (hleft : ∀ key w, w ∈ q key → op.registeredSourceId ≠ some w.sourceId) :
    Owned ⟨s.kernel.setOp sh i x, q⟩ := by
  intro key w hw
  obtain ⟨key', hw'⟩ := hmem key w hw
  obtain ⟨j, op', hop', hsource, hrest⟩ := h key' w hw'
  refine ⟨j, op', ?_, hsource, hrest⟩
  rw [op_setOp hop, if_neg]
  · exact hop'
  rintro rfl
  obtain rfl : op = op' := some.inj (hop.symm.trans hop')
  exact hleft key w hw hsource

lemma Kept.setOp (h : Kept s) (hop : s.kernel.op i = some op)
    (hx : x.bind FutexWaitOp.registeredSourceId = none) (hexact : sh.rows = q) (honce : Once q)
    (howned : Owned ⟨s.kernel.setOp sh i x, q⟩) :
    Kept ⟨s.kernel.setOp sh i x, q⟩ := by
  refine ⟨hexact, honce, howned, ?_, ?_⟩
  · intro j sourceId hj
    simp only [sourceOf_setOp hop, hx] at hj
    split_ifs at hj
    exact h.fresh j sourceId hj
  · intro j j' sourceId hj hj'
    simp only [sourceOf_setOp hop, hx] at hj hj'
    split_ifs at hj hj'
    exact h.single j j' sourceId hj hj'

lemma eraseP_eq_filter {ws : List FutexWaiter} (h : (ws.map sourceId).Nodup) (sourceId : ℕ) :
    ws.eraseP (fun w => w.sourceId == sourceId) = ws.filter fun w => w.sourceId != sourceId := by
  induction ws with
  | nil => rfl
  | cons w ws ih =>
    rw [map_cons, nodup_cons] at h
    by_cases hw : w.sourceId = sourceId
    · have hall : ws.filter (fun w => w.sourceId != sourceId) = ws := by
        rw [filter_eq_self]
        intro w' hw'
        have hne : w'.sourceId ≠ sourceId := by
          rintro rfl
          exact h.1 (hw ▸ mem_map_of_mem hw')
        simpa using hne
      simp [hw, hall]
    · simp [hw, ih h.2]

lemma Kept.rows_unregister (h : Kept s) (hop : s.kernel.op i = some op) {sourceId : ℕ}
    (hsource : op.registeredSourceId = some sourceId) (hhome : ¬ s.MovedAway i) :
    (s.kernel.shards.unregisterExactWaiter op.aspace op.uaddr op.isPrivate sourceId).rows =
      s.queues.leave sourceId := by
  -- its waiter is under its own word or nowhere
  have hothers {key : FutexKey} (hkey : op.key ≠ some key) :
      (s.queues key).filter (fun w => w.sourceId != sourceId) = s.queues key := by
    rw [filter_eq_self]
    intro w hw
    have hne : w.sourceId ≠ sourceId := fun heq =>
      hhome ⟨op, sourceId, key, w, hop, hsource, hw, heq, hkey⟩
    simpa using hne
  cases hkey : op.key with
  | none =>
    have hsame : s.kernel.shards.unregisterExactWaiter op.aspace op.uaddr op.isPrivate sourceId =
        s.kernel.shards := by
      rw [unregisterExactWaiter, show keyFor op.aspace op.uaddr op.isPrivate = none from hkey]
    rw [hsame, h.rows]
    funext key
    exact (hothers (by simp [hkey])).symm
  | some home =>
    rw [rows_unregisterExactWaiter _ hkey, h.rows]
    funext key
    by_cases hk : key = home
    · subst hk
      rw [update_self, eraseP_eq_filter (h.once.nodup key)]
      rfl
    · rw [update_of_ne hk]
      exact (hothers (by simpa [hkey] using Ne.symm hk)).symm

/-- **Ending**: an operation that was not moved away leaves the table with its registration. -/
lemma Kept.unregister (h : Kept s) (hop : s.kernel.op i = some op) (hhome : ¬ s.MovedAway i)
    (hx : x.bind FutexWaitOp.registeredSourceId = none) :
    Kept ⟨s.kernel.setOp (op.unregister s.kernel.shards).1 i x,
      op.registeredSourceId.elim s.queues s.queues.leave⟩ := by
  rcases hsource : op.registeredSourceId with _ | sourceId
  · have hsame : (op.unregister s.kernel.shards).1 = s.kernel.shards := by
      simp [FutexWaitOp.unregister, hsource]
    rw [hsame]
    exact h.setOp hop hx h.exact h.once
      (h.owned.setOp hop _ _ (fun key w hw => ⟨key, hw⟩) (by simp [hsource]))
  have hshards : (op.unregister s.kernel.shards).1 =
      s.kernel.shards.unregisterExactWaiter op.aspace op.uaddr op.isPrivate sourceId := by
    simp [FutexWaitOp.unregister, hsource]
  rw [hshards]
  refine h.setOp hop hx (h.rows_unregister hop hsource hhome) ?_ ?_
  · exact h.once.of_sublist fun key => filter_sublist
  refine h.owned.setOp hop _ _ (fun key w hw => ⟨key, mem_of_mem_filter hw⟩) ?_
  intro key w hw heq
  have hne := (mem_filter.mp hw).2
  rw [hsource, some.injEq] at heq
  simp [heq] at hne

lemma sourceOf_eq (h : k.op i = some op) : k.sourceOf i = op.registeredSourceId := by
  simp [Kernel.sourceOf, h]

lemma stepFutexWait_cases (sh : Shards) (op : FutexWaitOp) (sourceId : ℕ)
    (first second : Except Errno (BitVec 32)) :
    (∃ sh' e, stepFutexWait sh op sourceId first second = (sh', .error e) ∧ sh'.rows = sh.rows) ∨
      ∃ sh' key, stepFutexWait sh op sourceId first second = (sh', .ok sourceId) ∧
        op.key = some key ∧
        sh'.rows = update sh.rows key (sh.rows key ++ [⟨sourceId, op.tid, op.interestMask⟩]) := by
  unfold stepFutexWait
  split_ifs
  · exact .inl ⟨sh, _, rfl, rfl⟩
  rcases first with e | observed
  · exact .inl ⟨sh, _, rfl, rfl⟩
  simp only
  split_ifs
  · exact .inl ⟨sh, _, rfl, rfl⟩
  rcases hkey : op.key with _ | key
  · exact .inl ⟨sh, _, rfl, rfl⟩
  have hopen : (sh.store key (sh.entry key)).rows = sh.rows := by
    rw [rows_store]
    exact update_eq_self key sh.rows
  rcases second with e | observedAgain
  · exact .inl ⟨_, _, rfl, hopen⟩
  simp only
  split_ifs
  · exact .inl ⟨_, _, rfl, hopen⟩
  refine .inr ⟨_, key, rfl, rfl, ?_⟩
  rw [rows_pushWaiters, hopen]

lemma Kept.shards (h : Kept s) (hrows : sh.rows = s.kernel.shards.rows) :
    Kept ⟨{ s.kernel with shards := sh }, s.queues⟩ :=
  ⟨hrows.trans h.exact, h.once, h.owned, h.fresh, h.single⟩

lemma mem_enter {key key' : FutexKey} {w w' : FutexWaiter}
    (h : w' ∈ update q key (q key ++ [w]) key') : w' ∈ q key' ∨ key' = key ∧ w' = w := by
  by_cases hkey : key' = key
  · subst hkey
    rw [update_self, mem_append, mem_singleton] at h
    exact h.imp_right fun h => ⟨rfl, h⟩
  · rw [update_of_ne hkey] at h
    exact .inl h

lemma Once.enter (h : Once q) (hnew : ∀ key' w', w' ∈ q key' → w'.sourceId ≠ w.sourceId) :
    Once (update q key (q key ++ [w])) := by
  constructor
  · intro key'
    by_cases hkey : key' = key
    · subst hkey
      rw [update_self, map_append, nodup_append]
      refine ⟨h.nodup key', by simp, ?_⟩
      intro a ha b hb
      obtain ⟨w', hw', rfl⟩ := mem_map.mp ha
      obtain rfl : b = w.sourceId := by simpa using hb
      exact hnew key' w' hw'
    · rw [update_of_ne hkey]
      exact h.nodup key'
  · intro key₁ key₂ w₁ w₂ h₁ h₂ hsame
    rcases mem_enter h₁ with hold₁ | ⟨hkey₁, hw₁⟩ <;> rcases mem_enter h₂ with hold₂ | ⟨hkey₂, hw₂⟩
    · exact h.apart key₁ key₂ w₁ w₂ hold₁ hold₂ hsame
    · exact absurd (hsame.trans (congrArg _ hw₂)) (hnew key₁ w₁ hold₁)
    · exact absurd (hsame.symm.trans (congrArg _ hw₁)) (hnew key₂ w₂ hold₂)
    · exact hkey₁.trans hkey₂.symm

/-- **Registering**: an operation that begins to wait is queued last under its word. -/
lemma Kept.enter (h : Kept s) (hop : s.kernel.op i = some op) (hwoken : op.woken = false)
    (hsource : op.registeredSourceId = none)
    (hrows : sh.rows = update s.kernel.shards.rows key
      (s.kernel.shards.rows key ++ [⟨s.kernel.nextSource, op.tid, op.interestMask⟩])) :
    Kept ⟨s.kernel.register sh i op s.kernel.nextSource, update s.queues key
      (s.queues key ++ [⟨s.kernel.nextSource, op.tid, op.interestMask⟩])⟩ := by
  have hops := op_register hop sh s.kernel.nextSource
  have hsources := sourceOf_register hop sh s.kernel.nextSource
  refine ⟨?_, ?_, ?_, ?_, ?_⟩
  · rw [h.rows] at hrows
    exact hrows
  · refine h.once.enter fun key' w' hw' => Nat.ne_of_lt ?_
    obtain ⟨j, op, hop, hsource, -⟩ := h.owned key' w' hw'
    exact h.fresh j w'.sourceId (by rw [sourceOf_eq hop, hsource])
  · intro key' w hw
    rcases mem_enter hw with hw | ⟨-, rfl⟩
    · obtain ⟨j, op'', hj, hsource', hrest⟩ := h.owned key' w hw
      have hne : j ≠ i := by
        rintro rfl
        obtain rfl : op = op'' := some.inj (hop.symm.trans hj)
        simp [hsource] at hsource'
      refine ⟨j, op'', ?_, hsource', hrest⟩
      rw [hops, if_neg hne]
      exact hj
    · have hi := hops i
      rw [if_pos rfl] at hi
      exact ⟨i, _, hi, rfl, hwoken, rfl, rfl⟩
  · intro j sourceId hj
    rw [hsources] at hj
    split_ifs at hj
    · obtain rfl := some.inj hj
      exact Nat.lt_succ_self _
    · exact Nat.lt_succ_of_lt (h.fresh j sourceId hj)
  · intro j j' sourceId hj hj'
    rw [hsources] at hj hj'
    split_ifs at hj hj' with h1 h2 h2
    · exact h1.trans h2.symm
    · obtain rfl := some.inj hj
      exact absurd (h.fresh j' _ hj') (Nat.lt_irrefl _)
    · obtain rfl := some.inj hj'
      exact absurd (h.fresh j _ hj) (Nat.lt_irrefl _)
    · exact h.single j j' sourceId hj hj'

lemma Kept.create (h : Kept s) (x : FutexWaitOp) (hx : x.registeredSourceId = none) :
    Kept ⟨{ s.kernel with ops := s.kernel.ops ++ [some x] }, s.queues⟩ := by
  have hold {j : ℕ} {op : FutexWaitOp} (hj : s.kernel.op j = some op) :
      ({ s.kernel with ops := s.kernel.ops ++ [some x] } : Kernel).op j = some op := by
    have hlt : j < s.kernel.ops.length := by
      by_contra hlt
      simp [Kernel.op, getElem?_eq_none (Nat.not_lt.mp hlt)] at hj
    simpa [Kernel.op, getElem?_append_left hlt] using hj
  have hsource {j sourceId : ℕ}
      (hj : ({ s.kernel with ops := s.kernel.ops ++ [some x] } : Kernel).sourceOf j =
        some sourceId) : s.kernel.sourceOf j = some sourceId := by
    rcases Nat.lt_trichotomy j s.kernel.ops.length with hlt | heq | hgt
    · simpa [Kernel.sourceOf, Kernel.op, getElem?_append_left hlt] using hj
    · simp [Kernel.sourceOf, Kernel.op, heq, hx] at hj
    have hnone : (s.kernel.ops ++ [some x])[j]? = none :=
      getElem?_eq_none (by simp; omega)
    simp [Kernel.sourceOf, Kernel.op, hnone] at hj
  refine ⟨h.exact, h.once, ?_, fun j sourceId hj => h.fresh j sourceId (hsource hj),
    fun j j' sourceId hj hj' => h.single j j' sourceId (hsource hj) (hsource hj')⟩
  intro key w hw
  obtain ⟨j, op, hj, hrest⟩ := h.owned key w hw
  exact ⟨j, op, hold hj, hrest⟩

lemma Kept.stepOp (h : Kept s) (hop : s.kernel.op i = some op)
    (first second : Except Errno (BitVec 32)) :
    Kept ⟨(s.kernel.stepOp i op first second).1,
      s.queuesAfter (s.kernel.stepOp i op first second).1 (.step i first second)⟩ := by
  have hsrc := sourceOf_eq hop
  unfold Kernel.stepOp
  by_cases hwoken : op.woken = true
  · simp only [hwoken, if_true, queuesAfter, hop]
    cases hs : s.kernel.sourceOf i <;> exact h
  rw [Bool.not_eq_true] at hwoken
  simp only [hwoken, Bool.false_eq_true, if_false]
  cases hsource : op.registeredSourceId with
  | some sourceId =>
    simp only [queuesAfter, hop, hsrc, hsource]
    exact h
  | none =>
    rw [hsource] at hsrc
    rcases stepFutexWait_cases s.kernel.shards op s.kernel.nextSource first second with
      ⟨sh, e, hstep, hrows⟩ | ⟨sh, key, hstep, hkey, hrows⟩
    · have hsrc' : ({ s.kernel with shards := sh } : Kernel).sourceOf i = none := hsrc
      simp only [hstep, queuesAfter, hop, hsrc, hsrc']
      exact h.shards hrows
    have hsrc' := sourceOf_register hop sh s.kernel.nextSource i
    rw [if_pos rfl] at hsrc'
    simp only [hstep, queuesAfter, hop, hsrc, hsrc', Queues.enter, hkey]
    exact h.enter hop hwoken hsource hrows

lemma queuesAfter_resume (hop : s.kernel.op i = some op) (sh : Shards) {x : FutexWaitOp}
    (hx : x.registeredSourceId = none) (r : ResumeOutcome) :
    s.queuesAfter (s.kernel.setOp sh i (some x)) (.resume i r) =
      op.registeredSourceId.elim s.queues s.queues.leave := by
  have hsrc := sourceOf_eq hop
  have hsrc' := sourceOf_setOp hop sh (some x) i
  rw [if_pos rfl, bind_some, hx] at hsrc'
  simp only [queuesAfter, hsrc, hsrc']
  cases op.registeredSourceId <;> rfl

lemma queuesAfter_drop (hop : s.kernel.op i = some op) (k' : Kernel) :
    s.queuesAfter k' (.drop i) = op.registeredSourceId.elim s.queues s.queues.leave := by
  simp only [queuesAfter, sourceOf_eq hop]
  cases op.registeredSourceId <;> rfl

lemma registeredSourceId_unregister (op : FutexWaitOp) (sh : Shards) :
    (op.unregister sh).2.registeredSourceId = none := by
  unfold FutexWaitOp.unregister
  cases h : op.registeredSourceId with
  | none => exact h
  | some sourceId => rfl

lemma Kept.applyResume (h : Kept s) (hop : s.kernel.op i = some op) {r : ResumeOutcome}
    (hhome : r ≠ .other → ¬ s.MovedAway i) :
    Kept ⟨(s.kernel.applyResume i op r).1,
      s.queuesAfter (s.kernel.applyResume i op r).1 (.resume i r)⟩ := by
  have hnone := registeredSourceId_unregister op s.kernel.shards
  have hsame : s.queuesAfter s.kernel (.resume i r) = s.queues := by
    simp only [queuesAfter]
    cases s.kernel.sourceOf i <;> rfl
  cases r with
  | retry =>
    simp only [Kernel.applyResume]
    split_ifs with hstill
    · simp only [hsame]
      exact h
    have hx : FutexWaitOp.registeredSourceId { (op.unregister s.kernel.shards).2 with
        waiting := false, woken := true } = none := hnone
    simp only [queuesAfter_resume hop _ hx]
    exact h.unregister hop (hhome (by simp)) hx
  | timedOut | interrupted =>
    simp only [Kernel.applyResume]
    rw [queuesAfter_resume hop _ hnone]
    exact h.unregister hop (hhome (by simp)) hnone
  | other =>
    simp only [Kernel.applyResume]
    rw [hsame]
    exact h

/-- **Every call** keeps the table exact, if the operation that it ends was not moved away. -/
lemma Kept.step (h : Kept s) (c : Call) (hc : AtHome s c) : Kept (s.step c).1 := by
  have hnone {c : Call} (hc : s.step c = (s, .none)) : Kept (s.step c).1 := hc ▸ h
  cases c with
  | create uaddr val aspace interestMask tid isPrivate => exact h.create _ rfl
  | step i first second =>
    cases hop : s.kernel.op i with
    | none => exact hnone (by simp [Watched.step, Kernel.step, hop, queuesAfter])
    | some op =>
      simp only [Watched.step, Kernel.step, hop]
      exact h.stepOp hop first second
  | resume i r =>
    cases hop : s.kernel.op i with
    | none =>
      exact hnone (by simp [Watched.step, Kernel.step, hop, queuesAfter, Kernel.sourceOf])
    | some op =>
      simp only [Watched.step, Kernel.step, hop]
      exact h.applyResume hop hc
  | drop i =>
    cases hop : s.kernel.op i with
    | none =>
      exact hnone (by simp [Watched.step, Kernel.step, hop, queuesAfter, Kernel.sourceOf])
    | some op =>
      simp only [Watched.step, Kernel.step, hop, queuesAfter_drop hop]
      exact h.unregister hop hc rfl
  | wake aspace uaddr n wakeMask isPrivate =>
    have hsub := wake_sublist s.queues aspace uaddr n wakeMask isPrivate
    refine ⟨?_, h.once.of_sublist hsub, fun key w hw => h.owned key w ((hsub key).subset hw),
      h.fresh, h.single⟩
    exact (s.kernel.shards.rows_stepFutexWake n wakeMask).trans (by rw [h.rows]; rfl)
  | requeue aspace uaddr uaddr2 wakeN requeueN isPrivate =>
    refine ⟨?_, h.once.requeue aspace uaddr uaddr2 wakeN requeueN isPrivate, ?_, h.fresh, h.single⟩
    · exact (s.kernel.shards.rows_stepFutexRequeue wakeN requeueN).trans (by rw [h.rows]; rfl)
    intro key w hw
    obtain ⟨key', hw'⟩ := mem_requeue hw
    exact h.owned key' w hw'

lemma kept_new : Kept new :=
  ⟨rfl, ⟨by simp [new], by simp [new]⟩, by simp [Owned, new],
    by simp [new, Kernel.new, Kernel.sourceOf, Kernel.op],
    by simp [new, Kernel.new, Kernel.sourceOf, Kernel.op]⟩

/-! ### Operations that were moved away -/

lemma rows_unregister_of_ne (hkey : op.key ≠ some key) (sh : Shards) :
    (op.unregister sh).1.rows key = sh.rows key := by
  unfold FutexWaitOp.unregister
  rcases hsource : op.registeredSourceId with _ | sourceId
  · rfl
  simp only
  cases hhome : op.key with
  | none =>
    have hnone : keyFor op.aspace op.uaddr op.isPrivate = none := hhome
    rw [unregisterExactWaiter, hnone]
  | some home =>
    have hne : key ≠ home := fun h => hkey (h ▸ hhome)
    rw [rows_unregisterExactWaiter sh hhome, update_of_ne hne]

section

variable (h : Kept s) {sourceId : ℕ} (hsource : op.registeredSourceId = some sourceId)
  (hw : w ∈ s.queues key) (hwsource : w.sourceId = sourceId) (hkey : op.key ≠ some key)
include h hsource hw hwsource hkey

lemma Kept.not_exact_unregister (x : Option FutexWaitOp) :
    ¬ Exact ⟨s.kernel.setOp (op.unregister s.kernel.shards).1 i x,
      op.registeredSourceId.elim s.queues s.queues.leave⟩ := by
  intro hexact
  have hrows := congrFun hexact key
  simp only [Kernel.setOp, rows_unregister_of_ne hkey, h.rows, hsource, elim_some] at hrows
  rw [hrows] at hw
  have hne := (mem_filter.mp hw).2
  simp [hwsource] at hne

lemma Kept.not_stillRegistered : op.stillRegistered s.kernel.shards = false := by
  rw [FutexWaitOp.stillRegistered, hsource, any_some]
  rcases hhome : op.key with _ | home
  · have hnone : keyFor op.aspace op.uaddr op.isPrivate = none := hhome
    rw [exactWaiterRegistered, hnone]
  rw [← Bool.not_eq_true, exactWaiterRegistered_iff _ hhome, h.rows]
  rintro ⟨w', hw', hw'source⟩
  have hsame := h.once.apart key home w w' hw hw' (hwsource.trans hw'source.symm)
  exact hkey (hsame ▸ hhome)

end

/-- **A call that ends an operation that was moved away** leaves the table wrong. -/
lemma Kept.not_exact_step (h : Kept s) {c : Call} (hc : ¬ AtHome s c) : ¬ Exact (s.step c).1 := by
  cases c with
  | resume i r =>
    simp only [AtHome, Classical.not_imp, not_not] at hc
    obtain ⟨hr, op, sourceId, key, w, hop, hsource, hw, hwsource, hkey⟩ := hc
    have hnone := registeredSourceId_unregister op s.kernel.shards
    cases r with
    | retry =>
      have hx : FutexWaitOp.registeredSourceId { (op.unregister s.kernel.shards).2 with
          waiting := false, woken := true } = none := hnone
      simp only [Watched.step, Kernel.step, hop, Kernel.applyResume,
        h.not_stillRegistered hsource hw hwsource hkey, Bool.false_eq_true, if_false,
        queuesAfter_resume hop _ hx]
      exact h.not_exact_unregister hsource hw hwsource hkey _
    | timedOut | interrupted =>
      simp only [Watched.step, Kernel.step, hop, Kernel.applyResume, queuesAfter_resume hop _ hnone]
      exact h.not_exact_unregister hsource hw hwsource hkey _
    | other => exact absurd rfl hr
  | drop i =>
    simp only [AtHome, not_not] at hc
    obtain ⟨op, sourceId, key, w, hop, hsource, hw, hwsource, hkey⟩ := hc
    simp only [Watched.step, Kernel.step, hop, queuesAfter_drop hop]
    exact h.not_exact_unregister hsource hw hwsource hkey _
  | create _ _ _ _ _ _ | step _ _ _ | wake _ _ _ _ _ | requeue _ _ _ _ _ _ =>
    exact absurd trivial hc

/-! ### Whole runs -/

/-- A wake of `n` waiters takes the first `n` operations that wait on the word and want the wake,
and answers with their number. -/
def WakesFirst (s : Watched) : Prop :=
  ∀ aspace uaddr n wakeMask isPrivate key, Shards.badAddress uaddr = false →
    keyFor aspace uaddr isPrivate = some key →
    let woken := ((s.queues key).filter fun w => w.wants wakeMask).take n.toNat
    (s.step (.wake aspace uaddr n wakeMask isPrivate)).2 = .count woken.length ∧
      (s.step (.wake aspace uaddr n wakeMask isPrivate)).1.kernel.shards.rows =
        Function.update s.queues key ((s.queues key).filter fun w => w ∉ woken)

lemma wake_eq (h : Once q) (hbad : badAddress uaddr = false)
    (hkey : keyFor aspace uaddr isPrivate = some key) (n : BitVec 32) (wakeMask : BitVec 64) :
    q.wake aspace uaddr n wakeMask isPrivate = update q key
      ((q key).filter fun w => w ∉ ((q key).filter fun w => w.wants wakeMask).take n.toNat) := by
  unfold wake
  rw [hbad, hkey]
  simp only [Bool.false_or]
  split_ifs with hnone
  · -- nobody is woken
    have hwoken : ((q key).filter fun w => w.wants wakeMask).take n.toNat = [] := by
      rcases Bool.or_eq_true_iff.mp hnone with hn | hm
      · simp [of_decide_eq_true hn]
      · simp [wants, of_decide_eq_true hm]
    simp [hwoken]
  · rw [splitWoken_snd _ _ _ (List.Nodup.of_map sourceId (h.nodup key))]

lemma Kept.wakesFirst (h : Kept s) : WakesFirst s := by
  intro aspace uaddr n wakeMask isPrivate key hbad hkey woken
  constructor
  · have hanswer := s.kernel.shards.stepFutexWake_answer hbad hkey n wakeMask
    have hlen : woken.length = min n.toNat ((s.queues key).countP fun w => w.wants wakeMask) := by
      rw [length_take, countP_eq_length_filter]
    rw [h.rows, ← hlen] at hanswer
    simp only [Watched.step, Kernel.step, hanswer, Answer.ofCount]
  · rw [← wake_eq h.once hbad hkey n wakeMask, ← h.rows]
    exact s.kernel.shards.rows_stepFutexWake n wakeMask

/-- **The table of waiters**: in every run in which no operation ends while it waits on another word
than the one it was called for, the table holds exactly the operations that wait, in the order of
queueing, and a wake takes and counts the first of them. A call that does end such an operation
leaves its row. -/
theorem waiter_table_exact (calls : List Call) (hcalls : Runs.Allowed step AtHome new calls) :
    Exact (Runs.runSpec step new calls).1 ∧ Once (Runs.runSpec step new calls).1.queues ∧
      Owned (Runs.runSpec step new calls).1 ∧ WakesFirst (Runs.runSpec step new calls).1 ∧
      ∀ c, ¬ AtHome (Runs.runSpec step new calls).1 c →
        ¬ Exact ((Runs.runSpec step new calls).1.step c).1 := by
  have h : Kept (Runs.runSpec step new calls).1 :=
    Runs.invariant Kept (fun s c h hc => h.step c hc) calls kept_new hcalls
  exact ⟨h.exact, h.once, h.owned, h.wakesFirst, fun c hc => h.not_exact_step hc⟩

def plainSpace : AddressSpace := ⟨1, fun _ => none⟩

def wordFour : FutexKey := ⟨.addressSpace 1, 4⟩

def wakeAfterTimeout : List Call :=
  [.create 4 0 plainSpace futexWakeMask none true, .step 0 (.ok 0) (.ok 0),
    .create 4 0 plainSpace futexWakeMask none true, .step 1 (.ok 0) (.ok 0),
    .create 4 0 plainSpace futexWakeMask none true, .step 2 (.ok 0) (.ok 0), .resume 0 .timedOut,
    .wake plainSpace 4 1 futexWakeMask true]

/-- The second one is woken and the third is left. -/
theorem waiter_table_exact_wakeAfterTimeout :
    Runs.Allowed step AtHome new wakeAfterTimeout ∧
      (Runs.runSpec step new wakeAfterTimeout).1.kernel.shards.rows wordFour =
        [⟨3, none, futexWakeMask⟩] ∧
      (Runs.runSpec step new wakeAfterTimeout).2.getLast? = some (.count 1) := by
  have hcalls : Runs.Allowed step AtHome new wakeAfterTimeout := by
    refine ⟨trivial, trivial, trivial, trivial, trivial, trivial, ?_, trivial, trivial⟩
    rintro - ⟨op, sourceId, key, w, hop, -, hw, -, hkey⟩
    obtain rfl := Option.some.inj hop
    by_cases hhome : key = wordFour
    · exact hkey (hhome ▸ rfl)
    have hq : w ∈ update (update (update (fun _ => []) wordFour _) wordFour _) wordFour _ key := hw
    rw [update_of_ne hhome, update_of_ne hhome, update_of_ne hhome] at hq
    simp at hq
  refine ⟨hcalls, ?_, rfl⟩
  rw [(waiter_table_exact wakeAfterTimeout hcalls).1]
  rfl

def timeoutMovedAway : List Call :=
  [.create 4 0 plainSpace futexWakeMask none true, .step 0 (.ok 0) (.ok 0),
    .requeue plainSpace 4 8 0 1 true, .resume 0 .timedOut,
    .create 8 0 plainSpace futexWakeMask none true, .step 1 (.ok 0) (.ok 0),
    .wake plainSpace 8 1 futexWakeMask true]

/-- The wake counts the operation that has timed out, and the one that waits is not woken. -/
theorem timeout_after_requeue_counted :
    (Runs.runSpec step new timeoutMovedAway).2 =
      [.none, .waits 1, .count 1, .err .etimedout, .none, .waits 2, .count 1] ∧
    (Runs.runSpec step new timeoutMovedAway).1.kernel.shards.rows ⟨.addressSpace 1, 8⟩ =
      [⟨2, none, futexWakeMask⟩] := by
  decide +kernel

end Watched

end TxKernel.Futex
