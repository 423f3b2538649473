import TxKernel.Library.Runs
import TxKernel.Time.Engine

/-!
The timer engine behaves as the registry: every operation is matched, and the only panics are those
of an exhausted count.
-/

namespace TxKernel.Time

open List Function HeapEntry Runs Set Registry
open MinHeap (Sound Stored SameStorage rank)

/-- The entries of a heap as a map. -/
def Lists (heap : List HeapEntry) (live : TimerKey → Option UInt64) : Prop :=
  ∀ k d, live k = some d ↔ ∃ x ∈ heap, x.key = k ∧ x.deadlineNs = d

namespace Lists
variable {heap rest : List HeapEntry} {live : TimerKey → Option UInt64}

lemma perm (h : Lists heap live) (hp : rest ~ heap) : Lists rest live := by
  intro k d
  rw [h k d]
  simp only [hp.mem_iff]

lemma isSome_iff (h : Lists heap live) (k : TimerKey) :
    (live k).isSome = true ↔ ∃ x ∈ heap, x.key = k := by
  rw [Option.isSome_iff_exists]
  constructor
  · rintro ⟨d, hd⟩
    obtain ⟨x, hx, hk, _⟩ := (h k d).mp hd
    exact ⟨x, hx, hk⟩
  · rintro ⟨x, hx, hk⟩
    exact ⟨x.deadlineNs, (h k _).mpr ⟨x, hx, hk, rfl⟩⟩

lemma cons (h : Lists heap live) (x : HeapEntry) (hx : ∀ y ∈ heap, y.key ≠ x.key) :
    Lists (x :: heap) (update live x.key (some x.deadlineNs)) := by
  intro k d
  by_cases hk : k = x.key
  · subst hk
    rw [update_self]
    constructor
    · intro hd
      exact ⟨x, mem_cons_self, rfl, Option.some.inj hd⟩
    rintro ⟨y, hy, hyk, rfl⟩
    rcases mem_cons.mp hy with rfl | hy
    · rfl
    · exact absurd hyk (hx y hy)
  · rw [update_of_ne hk, h k d]
    constructor
    · rintro ⟨y, hy, hrest⟩
      exact ⟨y, mem_cons_of_mem _ hy, hrest⟩
    rintro ⟨y, hy, hyk, hyd⟩
    rcases mem_cons.mp hy with rfl | hy
    · exact absurd hyk.symm hk
    · exact ⟨y, hy, hyk, hyd⟩

lemma diff (taken : List HeapEntry) (h : Lists (taken ++ rest) live)
    (hnodup : ((taken ++ rest).map key).Nodup) :
    Lists rest fun k => if k ∈ taken.map key then none else live k := by
  rw [map_append, nodup_append] at hnodup
  intro k d
  simp only
  split_ifs with hk
  · refine ⟨fun hd => (by cases hd), ?_⟩
    rintro ⟨y, hy, rfl, _⟩
    exact absurd rfl (hnodup.2.2 _ hk _ (mem_map_of_mem hy))
  rw [h k d]
  constructor
  · rintro ⟨y, hy, rfl, hyd⟩
    rcases mem_append.mp hy with hy | hy
    · exact absurd (mem_map_of_mem hy) hk
    · exact ⟨y, hy, rfl, hyd⟩
  · rintro ⟨y, hy, hrest⟩
    exact ⟨y, mem_append_right _ hy, hrest⟩

lemma tail {x : HeapEntry} (h : Lists (x :: rest) live) (hnodup : ((x :: rest).map key).Nodup) :
    Lists rest (update live x.key none) := by
  have hdiff := diff [x] h hnodup
  intro k d
  rw [← hdiff k d, update_apply]
  simp

lemma ncard (h : Lists heap live) (hnodup : (heap.map key).Nodup) :
    {k | live k ≠ none}.ncard = heap.length := by
  have hset : {k | live k ≠ none} = ((heap.map key).toFinset : Set TimerKey) := by
    ext k
    rw [mem_ofPred_eq, ← Option.isSome_iff_ne_none, h.isSome_iff]
    simp
  rw [hset, ncard_coe_finset, toFinset_card_of_nodup hnodup, length_map]

end Lists

/-- The engine is in a state of the registry. -/
structure TimerEngine.Represents (e : TimerEngine) (m : Registry) : Prop where
  sound : Sound e.queue
  stored : Stored e.queue m.peak
  live : Lists e.queue.heap m.live
  issued : ∀ x ∈ e.queue.heap, x.key ∈ m.issued
  next : ∀ n, e.nextKey = some n → ∀ k ∈ m.issued, k.raw.toNat < n.toNat
  peak : e.queue.heap.length ≤ m.peak

namespace TimerEngine
variable {e : TimerEngine} {m : Registry}

lemma sound_new : Sound MinHeap.new := by
  refine ⟨⟨LinearProbe.table_replicate _ _ 0, nodup_nil, fun i x hx => (by cases hx)⟩,
    fun j x y _ _ hx => (by cases hx), ⟨fun k s => ?_, ⟨[], rfl, nodup_nil, ?_⟩, by decide,
      by decide⟩, .rfl⟩
  · constructor
    · intro hlead
      cases hlead
    · rintro ⟨slot, hslot, _⟩
      cases hslot
  · intro s slot hslot
    cases hslot

theorem represents_new : new.Represents empty := by
  refine ⟨sound_new, ⟨le_rfl, le_rfl, le_rfl, by decide, by decide, by decide⟩, ?_, ?_, ?_,
    le_rfl⟩
  · intro k d
    constructor
    · intro hd
      cases hd
    · rintro ⟨x, hx, _⟩
      cases hx
  · intro x hx
    cases hx
  · intro n _ k hk
    cases hk

section

variable (hR : e.Represents m)

include hR

lemma Represents.nodup : (e.queue.heap.map key).Nodup :=
  hR.sound.linked.nodup

lemma Represents.size : m.size = e.queue.heap.length :=
  hR.live.ncard hR.nodup

lemma Represents.holds_iff (key : TimerKey) : e.Holds key ↔ (m.live key).isSome = true :=
  (hR.live.isSome_iff key).symm

lemma Represents.shrink {q : MinHeap} {live : TimerKey → Option UInt64}
    (hq : Sound q) (hsame : SameStorage e.queue q) (hlive : Lists q.heap live)
    (hlen : q.heap.length ≤ e.queue.heap.length)
    (hmem : ∀ x ∈ q.heap, e.Holds x.key) (mutation : ℕ) :
    Represents { e with queue := q, mutation := mutation } { m with live := live } where
  sound := hq
  stored := hR.stored.of_same hsame hlen
  live := hlive
  issued := fun x hx => by
    obtain ⟨y, hy, hyk⟩ := hmem x hx
    exact hyk ▸ hR.issued y hy
  next := hR.next
  peak := hlen.trans hR.peak

end

lemma bumpMutation_eq (e : TimerEngine) (h : e.mutation + 1 < wordSize) :
    e.bumpMutation = some { e with mutation := e.mutation + 1 } := if_pos h

lemma bumpMutation_none (e : TimerEngine) (h : wordSize ≤ e.mutation + 1) :
    e.bumpMutation = none := if_neg (not_lt.mpr h)

variable {key : TimerKey} {op : Op}

section

variable (hR : e.Represents m)
include hR

lemma cancel_of_not_holds (hk : ¬ e.Holds key) : e.cancel key = some (false, e) := by
  simp [cancel, MinHeap.remove, MinHeap.slot,
    MinHeap.slotIndex_of_absent hR.sound fun x hx hkey => hk ⟨x, hx, hkey⟩]

lemma cancel_of_holds (hk : e.Holds key) :
    ∃ q, e.cancel key = ((bumpMutation { e with queue := q }).map fun e1 => (true, e1)) ∧
      Represents { e with queue := q, mutation := e.mutation + 1 }
        { m with live := update m.live key none } := by
  obtain ⟨x, hx, rfl⟩ := hk
  obtain ⟨q, hrem, hq, hsame, hperm⟩ := MinHeap.remove_spec hR.sound hx
  refine ⟨q, by simp [cancel, hrem], hR.shrink hq hsame ?_ ?_ ?_ _⟩
  · exact (hR.live.perm hperm.symm).tail ((hperm.map _).nodup_iff.mp hR.nodup)
  · rw [hperm.length_eq]
    simp
  · exact fun y hy => ⟨y, hperm.mem_iff.mpr (mem_cons_of_mem _ hy), rfl⟩

lemma rearm_of_not_holds (hk : ¬ e.Holds key) (deadline : UInt64) :
    e.rearm key deadline = some (false, e) := by
  simp [rearm, MinHeap.rearm,
    MinHeap.slotIndex_of_absent hR.sound fun x hx hkey => hk ⟨x, hx, hkey⟩]

lemma rearm_of_holds (hk : e.Holds key) (deadline : UInt64) :
    ∃ q, e.rearm key deadline = ((bumpMutation { e with queue := q }).map fun e1 => (true, e1)) ∧
      Represents { e with queue := q, mutation := e.mutation + 1 }
        { m with live := update m.live key (some deadline) } := by
  obtain ⟨x, hx, rfl⟩ := hk
  obtain ⟨q, rest, hrearm, hq, hsame, hold, hnew⟩ := MinHeap.rearm_spec hR.sound hx deadline
  have hnodup := (hold.map key).nodup_iff.mp hR.nodup
  have hrest := (hR.live.perm hold.symm).tail hnodup
  rw [map_cons, nodup_cons] at hnodup
  have hcons := hrest.cons ⟨x.key, deadline, x.generation + 1⟩ fun y hy hyk =>
    hnodup.1 (hyk ▸ mem_map_of_mem hy)
  rw [update_idem] at hcons
  refine ⟨q, by simp [rearm, hrearm], hR.shrink hq hsame (hcons.perm hnew) ?_ ?_ _⟩
  · rw [hold.length_eq, hnew.length_eq]
    simp
  intro y hy
  rcases mem_cons.mp (hnew.mem_iff.mp hy) with rfl | hy
  · exact ⟨x, hx, rfl⟩
  · exact ⟨y, hold.mem_iff.mpr (mem_cons_of_mem _ hy), rfl⟩

lemma drainDue_of_some {nowNs : UInt64} (out : MinHeap.Out) (h0 : e.queue.dueCount nowNs ≠ 0) :
    ∃ q due cap, e.drainDue nowNs out = ((bumpMutation { e with queue := q }).map fun e1 =>
        (⟨out.keys ++ due, cap⟩, e1)) ∧
      due.Pairwise m.Before ∧ (∀ k, k ∈ due ↔ ∃ d, m.live k = some d ∧ d ≤ nowNs) ∧
      Represents { e with queue := q, mutation := e.mutation + 1 }
        { m with live := fun k => if k ∈ due then none else m.live k } := by
  have hcap : out.keys.length + e.queue.dueCount nowNs ≤
      reserve out.keys.length out.cap (e.queue.dueCount nowNs) := by
    unfold reserve
    split_ifs <;> omega
  obtain ⟨q, taken, hdrain, hq, hsame, hd⟩ := MinHeap.drainDue_spec nowNs _ hR.sound rfl
    { out with cap := reserve out.keys.length out.cap (e.queue.dueCount nowNs) } hcap
  have hnodup := (hd.perm.map key).nodup_iff.mp hR.nodup
  have hlive := hR.live.perm hd.perm.symm
  refine ⟨q, taken.map key,
    reserve out.keys.length out.cap (e.queue.dueCount nowNs), ?_, ?_, fun k => ?_,
    hR.shrink hq hsame (hlive.diff taken hnodup) ?_ ?_ _⟩
  · have hassert : e.queue.dueCount nowNs ≤
        reserve out.keys.length out.cap (e.queue.dueCount nowNs) - out.keys.length := by omega
    simp only [drainDue, h0, if_false, hassert, if_true, hdrain, Option.bind_some]
  · refine pairwise_map.mpr (hd.sorted.imp_of_mem fun hx hy hlt => ?_)
    refine ⟨_, _, (hR.live _ _).mpr ⟨_, hd.perm.mem_iff.mpr (mem_append_left _ hx), rfl, rfl⟩,
      (hR.live _ _).mpr ⟨_, hd.perm.mem_iff.mpr (mem_append_left _ hy), rfl, rfl⟩, ?_⟩
    simpa [MinHeap.less] using (MinHeap.less_iff _ _).mpr hlt
  · rw [mem_map]
    constructor
    · rintro ⟨x, hx, rfl⟩
      exact ⟨x.deadlineNs, (hlive _ _).mpr ⟨x, mem_append_left _ hx, rfl, rfl⟩, hd.due x hx⟩
    rintro ⟨d, hdk, hle⟩
    obtain ⟨x, hx, rfl, rfl⟩ := (hlive k d).mp hdk
    rcases mem_append.mp hx with hx | hx
    · exact ⟨x, hx, rfl⟩
    · exact absurd hle (UInt64.not_le.mpr (hd.later x hx))
  · rw [hd.perm.length_eq]
    simp
  · exact fun x hx => ⟨x, hd.perm.mem_iff.mpr (mem_append_right _ hx), rfl⟩

lemma isNext : m.IsNext e.nextDeadlineNs := by
  rcases hq : e.queue.heap[0]? with _ | x
  · have hnil : e.queue.heap = [] := by
      rw [getElem?_eq_none_iff] at hq
      exact length_eq_zero_iff.mp (by omega)
    have hnone : e.nextDeadlineNs = none := by simp [nextDeadlineNs, MinHeap.nextDeadlineNs, hq]
    rw [hnone]
    intro k
    by_contra hk
    obtain ⟨d, hd⟩ := Option.ne_none_iff_exists'.mp hk
    obtain ⟨y, hy, _⟩ := (hR.live k d).mp hd
    rw [hnil] at hy
    cases hy
  · have hsome : e.nextDeadlineNs = some x.deadlineNs := by
      simp [nextDeadlineNs, MinHeap.nextDeadlineNs, hq]
    rw [hsome]
    refine ⟨⟨x.key, (hR.live _ _).mpr ⟨x, mem_of_getElem? hq, rfl, rfl⟩⟩, fun k d hd => ?_⟩
    obtain ⟨y, hy, _, rfl⟩ := (hR.live k d).mp hd
    obtain ⟨j, hj⟩ := mem_iff_getElem?.mp hy
    exact MinHeap.deadline_le_of_rank_le (hR.sound.ordered.first_le hq j hj)

/-- With room in the index, `insert` comes to a queue that has room, with the same timers. -/
lemma insert_eq (hsize : (e.queue.heap.length + 1) * 2 < wordSize) (deadline : UInt64) :
    ∃ q, Sound q ∧ Stored q (max m.peak (e.queue.heap.length + 1)) ∧ q.heap = e.queue.heap ∧
      q.hasInsertCapacity = true ∧
      e.insert deadline = e.nextKey.bind fun raw =>
        (q.insert ⟨raw⟩ deadline).bind fun queue =>
          (bumpMutation { e with nextKey := checkedSucc raw, queue := queue }).map fun e1 =>
            (⟨raw⟩, e1) := by
  have hst := hR.stored.mono (le_max_left m.peak (e.queue.heap.length + 1))
  by_cases hcap : e.queue.hasInsertCapacity = true
  · exact ⟨e.queue, hR.sound, hst, rfl, hcap, by simp [insert, insertLoop, hcap]⟩
  obtain ⟨q, hreserve, hq, hstq, hheap, hcapq⟩ := MinHeap.reserveForInsert_spec hR.sound hst hsize
    (le_max_right _ _)
  exact ⟨q, hq, hstq, hheap, hcapq, by simp [insert, insertLoop, hcap, hreserve, hcapq]⟩

/-- **Insertion** hands out a key that was never handed out before. -/
lemma insert_of_some (hsize : (e.queue.heap.length + 1) * 2 < wordSize) {raw : UInt64}
    (hraw : e.nextKey = some raw) (deadline : UInt64) :
    ∃ q, e.insert deadline = ((bumpMutation { e with
        nextKey := checkedSucc raw, queue := q }).map fun e1 => (⟨raw⟩, e1)) ∧
      (⟨raw⟩ : TimerKey) ∉ m.issued ∧
      Represents { e with nextKey := checkedSucc raw, queue := q, mutation := e.mutation + 1 }
        (m.add ⟨raw⟩ deadline) := by
  obtain ⟨q, hq, hst, hheap, hcap, heq⟩ := insert_eq hR hsize deadline
  have hfresh : (⟨raw⟩ : TimerKey) ∉ m.issued := fun hc => lt_irrefl _ (hR.next raw hraw _ hc)
  have hnew : ∀ x ∈ q.heap, x.key ≠ ⟨raw⟩ := by
    intro x hx hkey
    rw [hheap] at hx
    exact hfresh (hkey ▸ hR.issued x hx)
  obtain ⟨q1, hinsert, hq1, hperm, hks, hhc, hsc, hfits, hgrown⟩ :=
    MinHeap.insert_spec hq hcap hst.slots_le hnew deadline
  rw [hheap] at hperm
  have hlive : Lists q1.heap (update m.live ⟨raw⟩ (some deadline)) :=
    (hR.live.cons ⟨⟨raw⟩, deadline, 0⟩ (hheap ▸ hnew)).perm hperm
  have hlen : q1.heap.length = e.queue.heap.length + 1 := hperm.length_eq
  have hpeak : (m.add ⟨raw⟩ deadline).peak = max m.peak (e.queue.heap.length + 1) := by
    show max m.peak _ = _
    rw [hlive.ncard hq1.linked.nodup, hlen]
  have hroom := (MinHeap.hasInsertCapacity_iff.mp hcap).1
  refine ⟨q1, by rw [heq, hraw, Option.bind_some, hinsert, Option.bind_some], hfresh, hq1, ?_,
    hlive, fun x hx => ?_, fun n hn k hk => ?_, ?_⟩
  · rw [hpeak]
    refine ⟨?_, hfits, ?_, hks ▸ hst.keySlots_peak, hhc ▸ hst.heapCap_peak, hsc ▸ hst.slotsCap_peak⟩
    · show q1.heap.length ≤ q1.heapCap
      rw [hhc, hlen, ← hheap]
      exact hroom
    have := hst.slots_peak
    rw [hheap] at hgrown
    show q1.slots.length ≤ _
    omega
  · rcases mem_cons.mp (hperm.mem_iff.mp hx) with rfl | hx
    · exact mem_insert _ _
    · exact mem_insert_of_mem _ (hR.issued x hx)
  · simp only [checkedSucc] at hn
    split_ifs at hn with hlt
    cases hn
    have hadd : (raw + 1).toNat = raw.toNat + 1 := by
      rw [UInt64.toNat_add]
      exact Nat.mod_eq_of_lt hlt
    rw [hadd]
    rcases mem_insert_iff.mp hk with rfl | hk
    · exact Nat.lt_succ_self _
    · exact Nat.lt_succ_of_lt (hR.next raw hraw k hk)
  · rw [hpeak]
    show q1.heap.length ≤ _
    omega

end

lemma insert_of_full (hsize : wordSize ≤ (e.queue.heap.length + 1) * 2) (deadline : UInt64) :
    e.insert deadline = none := by
  have hcan : ∀ q : MinHeap, q.heap = e.queue.heap → q.keySlotsCanInsert = false := by
    intro q hq
    rw [← Bool.not_eq_true, MinHeap.keySlotsCanInsert_iff, hq]
    omega
  have hcap : e.queue.hasInsertCapacity = false := by
    rw [← Bool.not_eq_true, MinHeap.hasInsertCapacity_iff, hcan _ rfl]
    simp
  have hreq : requiredBuckets e.queue.heap.length = none := if_neg (by omega)
  have hreserve : e.queue.reserveForInsert = none := by
    by_cases hfree : e.queue.freeHead = noFreeSlot <;>
      simp [MinHeap.reserveForInsert, hfree, hcan, hreq]
  simp [insert, insertLoop, hcap, hreserve]

theorem step_of_exhausted (hR : e.Represents m) (hex : e.Exhausted op) : e.step op = none := by
  cases op with
  | insert deadline =>
    rcases Nat.lt_or_ge ((e.queue.heap.length + 1) * 2) wordSize with hsize | hsize
    · rcases hnext : e.nextKey with _ | raw
      · obtain ⟨q, _, _, _, _, heq⟩ := insert_eq hR hsize deadline
        simp [step, heq, hnext]
      have hmut : wordSize ≤ e.mutation + 1 := by
        rcases hex with h1 | h1 | h1
        · omega
        · rw [hnext] at h1
          cases h1
        · exact h1
      obtain ⟨q, heq, _⟩ := insert_of_some hR hsize hnext deadline
      simp [step, heq, bumpMutation_none, hmut]
    · simp [step, insert_of_full hsize]
  | cancel key | dropGuard key =>
    obtain ⟨q, heq, _⟩ := cancel_of_holds hR hex.1
    simp [step, heq, bumpMutation_none, hex.2]
  | rearm key deadline =>
    obtain ⟨q, heq, _⟩ := rearm_of_holds hR hex.1 deadline
    simp [step, heq, bumpMutation_none, hex.2]
  | drainDue nowNs out =>
    obtain ⟨q, due, cap, heq, _⟩ := drainDue_of_some hR out hex.1
    simp [step, heq, bumpMutation_none, hex.2]
  | nextDeadlineNs => exact absurd hex id

lemma update_none {live : TimerKey → Option UInt64} (h : live key = none) :
    update live key none = live := by
  rw [← h, update_eq_self]

lemma cancel_refines (hR : e.Represents m) (hex : ¬ e.Exhausted (.cancel key)) :
    ∃ e', e.cancel key = some ((m.live key).isSome, e') ∧
      e'.Represents { m with live := update m.live key none } := by
  by_cases hk : e.Holds key
  · have hmut : e.mutation + 1 < wordSize := not_le.mp fun hc => hex ⟨hk, hc⟩
    obtain ⟨q, heq, hR'⟩ := cancel_of_holds hR hk
    exact ⟨_, by simp [heq, bumpMutation_eq, hmut, (hR.holds_iff key).mp hk], hR'⟩
  · have hnone : m.live key = none := by simpa [hR.holds_iff] using hk
    exact ⟨e, by simp [cancel_of_not_holds hR hk, hnone], by rwa [update_none hnone]⟩

/-- **One step**: unless a count is exhausted, the engine answers as the registry does. -/
theorem step_refines (hR : e.Represents m) (hex : ¬ e.Exhausted op) :
    ∃ e' o m', e.step op = some (e', o) ∧ Registry.Meets m op o m' ∧ e'.Represents m' := by
  cases op with
  | insert deadline =>
    simp only [Exhausted, not_or, not_le] at hex
    obtain ⟨hsize, hnext, hmut⟩ := hex
    obtain ⟨raw, hraw⟩ := Option.ne_none_iff_exists'.mp hnext
    obtain ⟨q, heq, hfresh, hR'⟩ := insert_of_some hR hsize hraw deadline
    exact ⟨_, .key ⟨raw⟩, _, by simp [step, heq, bumpMutation_eq, hmut], .insert m _ _ hfresh, hR'⟩
  | cancel key =>
    obtain ⟨e', heq, hR'⟩ := cancel_refines hR hex
    exact ⟨e', _, _, by simp [step, heq], .cancel m key, hR'⟩
  | dropGuard key =>
    obtain ⟨e', heq, hR'⟩ := cancel_refines hR hex
    exact ⟨e', .done, _, by simp [step, heq], .dropGuard m key, hR'⟩
  | rearm key deadline =>
    by_cases hk : e.Holds key
    · have hmut : e.mutation + 1 < wordSize := not_le.mp fun hc => hex ⟨hk, hc⟩
      obtain ⟨q, heq, hR'⟩ := rearm_of_holds hR hk deadline
      obtain ⟨d, hd⟩ := Option.isSome_iff_exists.mp ((hR.holds_iff key).mp hk)
      refine ⟨_, .flag true, _, by simp [step, heq, bumpMutation_eq, hmut], ?_, hR'⟩
      simpa [hd] using Registry.Meets.rearm m key deadline
    · have hnone : m.live key = none := by simpa [hR.holds_iff] using hk
      refine ⟨e, .flag false, m, by simp [step, rearm_of_not_holds hR hk], ?_, hR⟩
      have hmeets := Registry.Meets.rearm m key deadline
      rw [hnone, Option.map_none, update_none hnone] at hmeets
      simpa using hmeets
  | drainDue nowNs out =>
    by_cases h0 : e.queue.dueCount nowNs = 0
    · refine ⟨e, .keys out.keys, m, by simp [step, drainDue, h0], ?_, hR⟩
      have hexact : ∀ k, k ∈ ([] : List TimerKey) ↔ ∃ d, m.live k = some d ∧ d ≤ nowNs := by
        intro k
        refine ⟨fun hk => (by cases hk), ?_⟩
        rintro ⟨d, hd, hle⟩
        obtain ⟨x, hx, _, rfl⟩ := (hR.live k d).mp hd
        exact absurd (by simpa using hle) (countP_eq_zero.mp h0 x hx)
      simpa using Registry.Meets.drainDue m nowNs out [] .nil hexact
    · have hmut : e.mutation + 1 < wordSize := not_le.mp fun hc => hex ⟨h0, hc⟩
      obtain ⟨q, due, cap, heq, hsorted, hexact, hR'⟩ := drainDue_of_some hR out h0
      exact ⟨_, .keys (out.keys ++ due), _, by simp [step, heq, bumpMutation_eq, hmut],
        .drainDue m nowNs out due hsorted hexact, hR'⟩
  | nextDeadlineNs =>
    exact ⟨e, .deadline e.nextDeadlineNs, m, rfl, .nextDeadlineNs m _ (isNext hR), hR⟩

theorem run_refines (ops : List Op) (hR : e.Represents m) :
    (Runs.Guarded step (fun e op => ¬ e.Exhausted op) e ops ↔ (run step e ops).isSome) ∧
      ∀ e' os, run step e ops = some (e', os) →
        ∃ m', m.Behaves ops os m' ∧ e'.Represents m' := by
  induction ops generalizing e m with
  | nil =>
    refine ⟨⟨fun _ => rfl, fun _ => trivial⟩, fun e' os hrun => ?_⟩
    cases hrun
    exact ⟨m, .nil m, hR⟩
  | cons op ops ih =>
    by_cases hex : e.Exhausted op
    · have hnone := step_of_exhausted hR hex
      refine ⟨⟨fun hg => absurd hex hg.1, fun hrun => ?_⟩, fun e' os hrun => ?_⟩
      · simp [run, hnone] at hrun
      · simp [run, hnone] at hrun
    obtain ⟨e1, o, m1, hstep, hmeets, hR1⟩ := step_refines hR hex
    obtain ⟨hiff, hall⟩ := ih hR1
    constructor
    · simp [Runs.Guarded, run, hstep, hex, hiff]
    intro e' os hrun
    simp only [run, hstep, Option.map_eq_some_iff] at hrun
    obtain ⟨⟨e2, os2⟩, hrun2, heq⟩ := hrun
    cases heq
    obtain ⟨m2, hbehaves, hR2⟩ := hall e2 os2 hrun2
    exact ⟨m2, .cons hmeets hbehaves, hR2⟩

/-- **The engine behaves as a map from fresh keys to deadlines.** A sequence of operations stops
only where a 64-bit count is exhausted; otherwise its answers are those of the registry, and the
memory taken is bounded by the greatest number of live timers. -/
theorem refines_registry (ops : List Op) :
    (Runs.Guarded step (fun e op => ¬ e.Exhausted op) new ops ↔ (Runs.run step new ops).isSome) ∧
      ∀ e os, Runs.run step new ops = some (e, os) →
        ∃ m, Registry.empty.Behaves ops os m ∧ e.queue.heap.length = m.size ∧
          e.queue.slots.length ≤ m.peak ∧ e.queue.keySlots.length ≤ max 8 (2 * m.peak) ∧
          e.queue.heapCap ≤ max 4 (2 * m.peak) ∧ e.queue.slotsCap ≤ max 4 (2 * m.peak) := by
  obtain ⟨hiff, hall⟩ := run_refines ops represents_new
  refine ⟨hiff, fun e os hrun => ?_⟩
  obtain ⟨m, hbehaves, hR⟩ := hall e os hrun
  exact ⟨m, hbehaves, hR.size.symm, hR.stored.slots_peak, hR.stored.keySlots_peak,
    hR.stored.heapCap_peak, hR.stored.slotsCap_peak⟩

def threeTimers : List Op :=
  [.insert 30, .insert 10, .insert 20, .rearm ⟨1⟩ 5, .cancel ⟨2⟩, .drainDue 25 ⟨[], 0⟩,
    .nextDeadlineNs]

def threeAnswers : List Output :=
  [.key ⟨1⟩, .key ⟨2⟩, .key ⟨3⟩, .flag true, .flag true, .keys [⟨1⟩, ⟨3⟩], .deadline none]

theorem refines_registry_threeTimers :
    ∃ e, Runs.run step new threeTimers = some (e, threeAnswers) ∧
      ∃ m, Registry.empty.Behaves threeTimers threeAnswers m ∧ e.queue.slots.length ≤ m.peak := by
  have hrun : (run step new threeTimers).map Prod.snd = some threeAnswers := by
    decide +kernel
  obtain ⟨⟨e, os⟩, hsome, rfl⟩ := Option.map_eq_some_iff.mp hrun
  obtain ⟨m, hbehaves, _, hslots, _⟩ := (refines_registry threeTimers).2 e threeAnswers hsome
  exact ⟨e, hsome, m, hbehaves, hslots⟩

lemma run_rearm_none (n : ℕ) (key : TimerKey) (deadline : UInt64) (hR : e.Represents m)
    (hk : e.Holds key) (hlt : e.mutation < wordSize) (hn : wordSize ≤ e.mutation + n) :
    run step e (replicate n (.rearm key deadline)) = none := by
  induction n generalizing e m with
  | zero => omega
  | succ n ih =>
    rw [replicate_succ]
    obtain ⟨q, heq, hR'⟩ := rearm_of_holds hR hk deadline
    rcases Nat.lt_or_ge (e.mutation + 1) wordSize with hmut | hmut
    · have hstep : e.step (.rearm key deadline) =
          some ({ e with queue := q, mutation := e.mutation + 1 }, .flag true) := by
        simp [step, heq, bumpMutation_eq, hmut]
      have hk' : Holds { e with queue := q, mutation := e.mutation + 1 } key :=
        (hR'.holds_iff key).mpr (by simp)
      simp [run, hstep, ih hR' hk' hmut (by show _ ≤ e.mutation + 1 + n; omega)]
    · have hnone := step_of_exhausted hR
        (show e.Exhausted (.rearm key deadline) from ⟨hk, hmut⟩)
      simp [run, hnone]

/-- **A timer that is moved often enough stops the engine**: the count of changes overflows. -/
theorem rearm_exhausts : Runs.run step new
    (.insert 0 :: List.replicate (wordSize - 1) (.rearm ⟨1⟩ 0)) = none := by
  have hsize : (new.queue.heap.length + 1) * 2 < wordSize := by decide
  obtain ⟨q, heq, _, hR⟩ := insert_of_some represents_new hsize
    (show new.nextKey = some 1 from rfl) 0
  have hstep : new.step (.insert 0) =
      some ({ new with nextKey := checkedSucc 1, queue := q, mutation := 1 }, .key ⟨1⟩) := by
    simp only [step, heq]
    rw [bumpMutation_eq _ (show 0 + 1 < wordSize by decide)]
    rfl
  have hk : Holds { new with nextKey := checkedSucc 1, queue := q, mutation := 1 } ⟨1⟩ :=
    (hR.holds_iff ⟨1⟩).mpr (by simp [add])
  have hrest := run_rearm_none (wordSize - 1) ⟨1⟩ 0 hR hk (show 1 < wordSize by decide)
    (show wordSize ≤ 1 + (wordSize - 1) by decide)
  simp only [run, hstep]
  exact congrArg _ hrest

end TimerEngine

end TxKernel.Time
