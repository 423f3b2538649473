import Mathlib.Algebra.Group.Nat.Defs
import Mathlib.Data.List.Basic
import Mathlib.Logic.Function.Basic

/-!
The table of futex waiters: one queue for each futex word, in a fixed number of shards. A word is
known by address space and address or, in a shared mapping, by page container and offset; a waiter
by the id of its wait source.
-/

namespace TxKernel.Futex

open List Function Option

inductive Errno
  | eagain
  | efault
  | eintr
  | einval
  | etimedout
  deriving DecidableEq

def futexBucketCount : ℕ := 256

def futexWakeMask : BitVec 64 := 0xffffffff

/-! ### Keys -/

inductive FutexDomain
  | addressSpace (id : BitVec 64)
  | sharedPage (page : BitVec 32)
  deriving DecidableEq

structure FutexKey where
  domain : FutexDomain
  offset : BitVec 64
  deriving DecidableEq

def bucketIndex (uaddr : BitVec 64) : ℕ :=
  (uaddr ^^^ uaddr.rotateRight 17).toNat % futexBucketCount

def exactWaiterBucket (key : FutexKey) : ℕ :=
  match key.domain with
  | .addressSpace id => bucketIndex (key.offset ^^^ id.rotateLeft 13)
  | .sharedPage page => bucketIndex (key.offset ^^^ (page.setWidth 64).rotateLeft 29)

structure MapEntry where
  start : BitVec 64
  shared : Bool
  pageBacking : Option (BitVec 32 × BitVec 64)

structure AddressSpace where
  futexIdentity : BitVec 64
  lookup : BitVec 64 → Option MapEntry

def keyFor (aspace : AddressSpace) (uaddr : BitVec 64) (isPrivate : Bool) : Option FutexKey :=
  let addressSpaceKey : FutexKey := ⟨.addressSpace aspace.futexIdentity, uaddr⟩
  if isPrivate then some addressSpaceKey
  else
    match aspace.lookup uaddr with
    | none => some addressSpaceKey
    | some entry =>
      if entry.shared then
        match entry.pageBacking with
        | none => some addressSpaceKey
        | some (container, backingBase) =>
          if uaddr < entry.start then none
          else
            let displacement := uaddr - entry.start
            if backingBase.toNat + displacement.toNat < 2 ^ 64 then
              some ⟨.sharedPage container, backingBase + displacement⟩
            else none
      else some addressSpaceKey

/-! ### The shards -/

structure FutexWaiter where
  sourceId : ℕ
  tid : Option (BitVec 32)
  interestMask : BitVec 64
  deriving DecidableEq

abbrev Table := FutexKey → Option (List FutexWaiter)

abbrev Shards := ℕ → Option Table

namespace Shards

def entry (s : Shards) (key : FutexKey) : Option (List FutexWaiter) :=
  (s (exactWaiterBucket key)).bind fun table => table key

def store (s : Shards) (key : FutexKey) (e : Option (List FutexWaiter)) : Shards :=
  Function.update s (exactWaiterBucket key)
    (some (Function.update ((s (exactWaiterBucket key)).getD fun _ => none) key e))

def storeNonempty (s : Shards) (key : FutexKey) (waiters : List FutexWaiter) : Shards :=
  s.store key (if waiters = [] then none else some waiters)

def pushWaiters (s : Shards) (key : FutexKey) (waiters : List FutexWaiter) : Shards :=
  s.store key (some ((s.entry key).getD [] ++ waiters))

def unregisterExactWaiter (s : Shards) (aspace : AddressSpace) (uaddr : BitVec 64)
    (isPrivate : Bool) (sourceId : ℕ) : Shards :=
  match keyFor aspace uaddr isPrivate with
  | none => s
  | some key =>
    match s.entry key with
    | none => s
    | some waiters =>
      match waiters.findIdx? fun w => w.sourceId == sourceId with
      | none => s
      | some pos => s.storeNonempty key (waiters.eraseIdx pos)

def exactWaiterRegistered (s : Shards) (aspace : AddressSpace) (uaddr : BitVec 64)
    (isPrivate : Bool) (sourceId : ℕ) : Bool :=
  match keyFor aspace uaddr isPrivate with
  | none => false
  | some key => ((s.entry key).getD []).any fun w => w.sourceId == sourceId

def badAddress (uaddr : BitVec 64) : Bool := uaddr == 0 || uaddr &&& 3 != 0

end Shards

def FutexWaiter.wants (w : FutexWaiter) (wakeMask : BitVec 64) : Bool :=
  w.interestMask &&& wakeMask != 0

def splitWoken (wakeMask : BitVec 64) : ℕ → List FutexWaiter → List FutexWaiter × List FutexWaiter
  | _, [] => ([], [])
  | n, w :: ws =>
    if 0 < n && w.wants wakeMask then
      let (waiters, remaining) := splitWoken wakeMask (n - 1) ws
      (w :: waiters, remaining)
    else
      let (waiters, remaining) := splitWoken wakeMask n ws
      (waiters, w :: remaining)

namespace Shards

def stepFutexWake (s : Shards) (aspace : AddressSpace) (uaddr : BitVec 64) (n : BitVec 32)
    (wakeMask : BitVec 64) (isPrivate : Bool) : Shards × Except Errno ℕ :=
  if badAddress uaddr then (s, .error .einval)
  else if n = 0 || wakeMask = 0 then (s, .ok 0)
  else
    match keyFor aspace uaddr isPrivate with
    | none => (s, .error .efault)
    | some key =>
      match s.entry key with
      | none => (s, .ok 0)
      | some queued =>
        let (waiters, remaining) := splitWoken wakeMask n.toNat queued
        if waiters = [] then (s.store key (some remaining), .ok 0)
        else (s.storeNonempty key remaining, .ok waiters.length)

def takeRequeuedWaiters (s : Shards) (sourceKey : FutexKey) (requeueN : BitVec 32) :
    Shards × List FutexWaiter :=
  match s.entry sourceKey with
  | none => (s, [])
  | some waiters =>
    (s.storeNonempty sourceKey (waiters.drop requeueN.toNat), waiters.take requeueN.toNat)

def saturatingAdd (a b : ℕ) : ℕ := min (a + b) (2 ^ 32 - 1)

/-- Move the first waiters of one word to the end of the queue of another. The two shards are locked
together, or are the same. -/
def moveRequeuedWaiters (s : Shards) (sourceKey targetKey : FutexKey) (requeueN : BitVec 32) :
    Shards × ℕ :=
  let (s, moved) := s.takeRequeuedWaiters sourceKey requeueN
  if moved = [] then (s, 0) else (s.pushWaiters targetKey moved, moved.length)

def wakeForRequeue (s : Shards) (aspace : AddressSpace) (uaddr : BitVec 64) (wakeN : BitVec 32)
    (isPrivate : Bool) : Shards × Except Errno ℕ :=
  if wakeN = 0 then (s, .ok 0) else s.stepFutexWake aspace uaddr wakeN futexWakeMask isPrivate

def stepFutexRequeue (s : Shards) (aspace : AddressSpace) (uaddr uaddr2 : BitVec 64)
    (wakeN requeueN : BitVec 32) (isPrivate : Bool) : Shards × Except Errno ℕ :=
  if badAddress uaddr || badAddress uaddr2 then (s, .error .einval)
  else
    match s.wakeForRequeue aspace uaddr wakeN isPrivate with
    | (s, .error e) => (s, .error e)
    | (s, .ok total) =>
      match keyFor aspace uaddr isPrivate, keyFor aspace uaddr2 isPrivate with
      | some sourceKey, some targetKey =>
        let (s, moved) := s.moveRequeuedWaiters sourceKey targetKey requeueN
        (s, .ok (saturatingAdd total moved))
      | _, _ => (s, .error .efault)

/-! ### The queues -/

def rows (s : Shards) (key : FutexKey) : List FutexWaiter := (s.entry key).getD []

variable (s : Shards)

variable {key : FutexKey}

lemma update_rows_nil (h : s.rows key = []) : update s.rows key [] = s.rows := by
  rw [← h, update_eq_self]

lemma rows_of_entry {e : Option (List FutexWaiter)} (h : s.entry key = e) :
    s.rows key = e.getD [] := by rw [rows, h]

lemma rows_store (key : FutexKey) (e : Option (List FutexWaiter)) :
    (s.store key e).rows = update s.rows key (e.getD []) := by
  funext k
  by_cases hk : k = key
  · subst hk
    simp [rows, entry, store]
  rw [update_of_ne hk]
  by_cases hb : exactWaiterBucket k = exactWaiterBucket key
  · cases ht : s (exactWaiterBucket key) <;> simp [rows, entry, store, hb, hk, ht]
  · simp [rows, entry, store, hb]

section

variable (key : FutexKey) (waiters : List FutexWaiter)

lemma rows_storeNonempty : (s.storeNonempty key waiters).rows = update s.rows key waiters := by
  rw [storeNonempty, rows_store]
  split_ifs with h <;> simp [h]

lemma rows_pushWaiters :
    (s.pushWaiters key waiters).rows = update s.rows key (s.rows key ++ waiters) := by
  rw [pushWaiters, rows_store]
  rfl

end

lemma eraseIdx_eq_eraseP {waiters : List FutexWaiter} {p : FutexWaiter → Bool} {pos : ℕ}
    (h : waiters.findIdx? p = some pos) : waiters.eraseIdx pos = waiters.eraseP p := by
  induction waiters generalizing pos with
  | nil => simp at h
  | cons w ws ih =>
    rw [findIdx?_cons] at h
    cases hw : p w with
    | true =>
      simp only [hw, if_true, some.injEq] at h
      simp [← h, hw]
    | false =>
      simp only [hw, Bool.false_eq_true, if_false, map_eq_some_iff] at h
      obtain ⟨pos', hpos', rfl⟩ := h
      rw [eraseIdx_cons_succ, ih hpos', eraseP_cons_of_neg (by simp [hw])]

section

variable {aspace : AddressSpace} {uaddr : BitVec 64} {isPrivate : Bool}
  (hkey : keyFor aspace uaddr isPrivate = some key) (sourceId : ℕ)
include hkey

lemma rows_unregisterExactWaiter :
    (s.unregisterExactWaiter aspace uaddr isPrivate sourceId).rows =
      update s.rows key ((s.rows key).eraseP fun w => w.sourceId == sourceId) := by
  rw [unregisterExactWaiter, hkey]
  simp only
  rcases he : s.entry key with _ | waiters
  · have hrows : s.rows key = [] := s.rows_of_entry he
    rw [hrows, eraseP_nil, s.update_rows_nil hrows]
  have hrows : s.rows key = waiters := s.rows_of_entry he
  simp only
  cases hpos : waiters.findIdx? fun w => w.sourceId == sourceId with
  | none =>
    have habsent := findIdx?_eq_none_iff.mp hpos
    have hsame : waiters.eraseP (fun w => w.sourceId == sourceId) = waiters :=
      eraseP_of_forall_not fun w hw => by simpa using habsent w hw
    rw [hrows, hsame, ← hrows, update_eq_self]
  | some pos =>
    rw [rows_storeNonempty, hrows, eraseIdx_eq_eraseP hpos]

lemma exactWaiterRegistered_iff :
    s.exactWaiterRegistered aspace uaddr isPrivate sourceId = true ↔
      ∃ w ∈ s.rows key, w.sourceId = sourceId := by
  rw [exactWaiterRegistered, hkey]
  simp [rows]

end

end Shards

/-! ### Wakes -/

variable (wakeMask : BitVec 64) (n : ℕ) (ws : List FutexWaiter)

lemma splitWoken_fst :
    (splitWoken wakeMask n ws).1 = (ws.filter fun w => w.wants wakeMask).take n := by
  induction ws generalizing n with
  | nil => simp [splitWoken]
  | cons w ws ih =>
    cases hw : w.wants wakeMask with
    | false => simp [splitWoken, hw, ih]
    | true =>
      cases n with
      | zero | succ n => simp [splitWoken, hw, ih]

lemma splitWoken_snd_sublist : (splitWoken wakeMask n ws).2.Sublist ws := by
  induction ws generalizing n with
  | nil => simp [splitWoken]
  | cons w ws ih =>
    rw [splitWoken]
    split_ifs
    · exact (ih (n - 1)).trans (sublist_cons_self w ws)
    · exact (ih n).cons_cons w

lemma splitWoken_snd (hnodup : ws.Nodup) :
    (splitWoken wakeMask n ws).2 =
      ws.filter fun w => w ∉ (ws.filter fun w => w.wants wakeMask).take n := by
  induction ws generalizing n with
  | nil => simp [splitWoken]
  | cons w ws ih =>
    obtain ⟨hw, hws⟩ := nodup_cons.mp hnodup
    have hnot (m : ℕ) : w ∉ (ws.filter fun w => w.wants wakeMask).take m := fun h =>
      hw (mem_of_mem_filter (mem_of_mem_take h))
    cases hwants : w.wants wakeMask with
    | false => simp [splitWoken, hwants, ih n hws, hnot n]
    | true =>
      rcases n with _ | n
      · simp [splitWoken, ih 0 hws]
      have hsame : ws.filter (fun x => x ∉ w :: (ws.filter fun w => w.wants wakeMask).take n) =
          ws.filter fun x => x ∉ (ws.filter fun w => w.wants wakeMask).take n := by
        refine filter_congr fun x hx => ?_
        have hne : x ≠ w := fun h => hw (h ▸ hx)
        simp [hne]
      simp only [splitWoken, hwants, Nat.succ_pos, decide_true, Bool.and_self, if_true,
        Nat.add_sub_cancel, ih n hws, filter_cons_of_pos, take_succ_cons]
      rw [filter_cons_of_neg (by simp), hsame]

/-! ### Wakes and requeues on queues -/

abbrev Queues := FutexKey → List FutexWaiter

namespace Queues

/-- The first `n` waiters of the word that want the wake leave its queue. -/
def wake (q : Queues) (aspace : AddressSpace) (uaddr : BitVec 64) (n : BitVec 32)
    (wakeMask : BitVec 64) (isPrivate : Bool) : Queues :=
  if Shards.badAddress uaddr || n = 0 || wakeMask = 0 then q
  else
    match keyFor aspace uaddr isPrivate with
    | none => q
    | some key => Function.update q key (splitWoken wakeMask n.toNat (q key)).2

/-- The first waiters of a queue go to the end of another. -/
def move (q : Queues) (sourceKey targetKey : FutexKey) (n : ℕ) : Queues :=
  let rest := Function.update q sourceKey ((q sourceKey).drop n)
  Function.update rest targetKey (rest targetKey ++ (q sourceKey).take n)

def requeue (q : Queues) (aspace : AddressSpace) (uaddr uaddr2 : BitVec 64)
    (wakeN requeueN : BitVec 32) (isPrivate : Bool) : Queues :=
  if Shards.badAddress uaddr || Shards.badAddress uaddr2 then q
  else
    let q := q.wake aspace uaddr wakeN futexWakeMask isPrivate
    match keyFor aspace uaddr isPrivate, keyFor aspace uaddr2 isPrivate with
    | some sourceKey, some targetKey => q.move sourceKey targetKey requeueN.toNat
    | _, _ => q

end Queues

namespace Shards

variable (s : Shards) {aspace : AddressSpace} {uaddr uaddr2 : BitVec 64} {isPrivate : Bool}

lemma rows_stepFutexWake (n : BitVec 32) (wakeMask : BitVec 64) :
    (s.stepFutexWake aspace uaddr n wakeMask isPrivate).1.rows =
      Queues.wake s.rows aspace uaddr n wakeMask isPrivate := by
  unfold stepFutexWake Queues.wake
  by_cases hbad : badAddress uaddr = true
  · simp [hbad]
  simp only [hbad, Bool.false_or, Bool.false_eq_true, if_false]
  split_ifs with hnone
  · rfl
  rcases keyFor aspace uaddr isPrivate with _ | key
  · rfl
  simp only
  rcases he : s.entry key with _ | queued
  · have hrows : s.rows key = [] := s.rows_of_entry he
    simp [hrows, splitWoken, s.update_rows_nil hrows]
  have hrows : s.rows key = queued := s.rows_of_entry he
  simp only
  split_ifs
  · rw [rows_store, hrows]
    rfl
  · rw [rows_storeNonempty, hrows]

lemma stepFutexWake_answer (hbad : badAddress uaddr = false)
    (hkey : keyFor aspace uaddr isPrivate = some key) (n : BitVec 32) (wakeMask : BitVec 64) :
    (s.stepFutexWake aspace uaddr n wakeMask isPrivate).2 =
      .ok (min n.toNat ((s.rows key).countP fun w => w.wants wakeMask)) := by
  have hlen : (splitWoken wakeMask n.toNat (s.rows key)).1.length =
      min n.toNat ((s.rows key).countP fun w => w.wants wakeMask) := by
    rw [splitWoken_fst, length_take, countP_eq_length_filter]
  unfold stepFutexWake
  rw [if_neg (by simp [hbad])]
  split_ifs with hnone
  · rcases Bool.or_eq_true_iff.mp hnone with hn | hm
    · simp [of_decide_eq_true hn]
    · simp [FutexWaiter.wants, of_decide_eq_true hm]
  rw [hkey]
  simp only
  rcases he : s.entry key with _ | queued
  · simp [s.rows_of_entry he]
  rw [s.rows_of_entry he] at hlen ⊢
  simp only [getD_some] at hlen ⊢
  split_ifs with hw
  · rw [← hlen, hw]
    rfl
  · rw [hlen]

lemma rows_moveRequeuedWaiters (sourceKey targetKey : FutexKey) (n : BitVec 32) :
    (s.moveRequeuedWaiters sourceKey targetKey n).1.rows =
      Queues.move s.rows sourceKey targetKey n.toNat := by
  unfold moveRequeuedWaiters takeRequeuedWaiters Queues.move
  rcases he : s.entry sourceKey with _ | waiters
  · have hrows : s.rows sourceKey = [] := s.rows_of_entry he
    simp [hrows, s.update_rows_nil hrows]
  have hrows : s.rows sourceKey = waiters := s.rows_of_entry he
  simp only [hrows]
  split_ifs with hmoved
  · simp [rows_storeNonempty, hmoved]
  · simp [rows_pushWaiters, rows_storeNonempty]

lemma rows_stepFutexRequeue (wakeN requeueN : BitVec 32) :
    (s.stepFutexRequeue aspace uaddr uaddr2 wakeN requeueN isPrivate).1.rows =
      Queues.requeue s.rows aspace uaddr uaddr2 wakeN requeueN isPrivate := by
  have hwake : (s.wakeForRequeue aspace uaddr wakeN isPrivate).1.rows =
      Queues.wake s.rows aspace uaddr wakeN futexWakeMask isPrivate := by
    unfold wakeForRequeue
    split_ifs with h0
    · simp [Queues.wake, h0]
    · exact s.rows_stepFutexWake wakeN futexWakeMask
  unfold stepFutexRequeue Queues.requeue
  split_ifs with hbad
  · rfl
  rw [← hwake]
  rcases h : s.wakeForRequeue aspace uaddr wakeN isPrivate with ⟨s', e | total⟩
  · -- the wake can only fail for want of a key
    have hkey : keyFor aspace uaddr isPrivate = none := by
      by_contra hkey
      obtain ⟨key, hkey⟩ := ne_none_iff_exists'.mp hkey
      have hbad' : badAddress uaddr = false := by
        by_contra hb
        simp [Bool.not_eq_false _ |>.mp hb] at hbad
      unfold wakeForRequeue at h
      split_ifs at h with h0
      · have := congrArg Prod.snd h
        simp at this
      have := congrArg Prod.snd h
      rw [stepFutexWake_answer s hbad' hkey] at this
      simp at this
    simp [hkey]
  · rcases keyFor aspace uaddr isPrivate with _ | sourceKey
    · rfl
    cases keyFor aspace uaddr2 isPrivate with
    | none => rfl
    | some targetKey => exact s'.rows_moveRequeuedWaiters sourceKey targetKey requeueN

end Shards

end TxKernel.Futex
