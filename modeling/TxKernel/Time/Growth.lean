import Mathlib.Data.List.Nodup
import TxKernel.Time.QueueOps

/-!
Insertion into the queue and the growth before it. Slots are only as many as there have been live
timers at once; the index is rebuilt when it would become more than half full.
-/

namespace TxKernel.Time.MinHeap

open List SoundWith
open LinearProbe (entries getElem?_set_lt lt_of_getElem? getElem?_some_of_lt)

lemma mem_liveKeySlots {slots : List Slot} {key : TimerKey} {s : ℕ} :
    (⟨key, s⟩ : KeySlot) ∈ liveKeySlots slots ↔
      ∃ slot, slots[s]? = some slot ∧ slot.live = true ∧ slot.key = key := by
  simp only [liveKeySlots, mem_filterMap, Prod.exists, mem_zipIdx_iff_getElem?]
  constructor
  · rintro ⟨slot, u, hu, hif⟩
    split_ifs at hif with hlive
    cases hif
    exact ⟨slot, hu, hlive, rfl⟩
  · rintro ⟨slot, hslot, hlive, rfl⟩
    exact ⟨slot, s, hslot, by rw [if_pos hlive]⟩

lemma nodup_liveKeySlots (slots : List Slot) : (liveKeySlots slots).Nodup := by
  have hidx : (slots.zipIdx.map Prod.snd).Nodup := by
    rw [zipIdx_map_snd]
    exact nodup_range'
  refine pairwise_filterMap.mpr ((pairwise_map.mp hidx).imp fun {p q} hne a ha b hb => ?_)
  split_ifs at ha hb
  cases ha
  cases hb
  exact fun heq => hne (congrArg KeySlot.slotIndex heq)

section
variable {h : MinHeap}

lemma Sound.liveKeySlots_perm (hs : Sound h) : liveKeySlots h.slots ~ entries h.keySlots := by
  have hnodup : (entries h.keySlots).Nodup := List.Nodup.of_map _ hs.linked.table.nodup_keys
  refine (perm_ext_iff_of_nodup (nodup_liveKeySlots _) hnodup).mpr fun ⟨key, s⟩ => ?_
  rw [mem_liveKeySlots]
  exact (hs.store.live_iff key s).symm

lemma Sound.slots_length (hs : Sound h) (hfree : h.freeHead = noFreeSlot) :
    h.slots.length = h.heap.length := by
  obtain ⟨c, hc⟩ := hs.store.free
  have hnil : c = [] := by
    rcases c with _ | ⟨s, c⟩
    · rfl
    obtain ⟨heq, slot, hslot, _⟩ := hc.chain
    have := lt_of_getElem? hslot
    have := hs.store.small
    omega
  have hall : ∀ slot ∈ h.slots, slot.live = true := by
    intro slot hmem
    obtain ⟨s, hslot⟩ := mem_iff_getElem?.mp hmem
    by_contra hdead
    have := hc.dead hslot (by simpa using hdead)
    rw [hnil] at this
    cases this
  have hlen : (liveKeySlots h.slots).length = h.slots.zipIdx.length := by
    refine filterMap_length_eq_length.mpr fun p hp => ?_
    have hmem : p.1 ∈ h.slots := mem_of_getElem? (mem_zipIdx_iff_getElem?.mp hp)
    rw [if_pos (hall p.1 hmem)]
    rfl
  rw [length_zipIdx] at hlen
  rw [← hlen, hs.liveKeySlots_perm.length_eq, hs.count]

lemma keySlotsCanInsert_iff : h.keySlotsCanInsert = true ↔ h.keySlots ≠ [] ∧
    (h.heap.length + 1) * 2 < wordSize ∧ (h.heap.length + 1) * 2 ≤ h.keySlots.length := by
  unfold keySlotsCanInsert requiredBuckets
  split_ifs with hsize <;> simp [hsize]

lemma hasInsertCapacity_iff : h.hasInsertCapacity = true ↔ h.heap.length < h.heapCap ∧
    (h.freeHead ≠ noFreeSlot ∨ h.slots.length < h.slotsCap) ∧ h.keySlotsCanInsert = true := by
  simp [hasInsertCapacity, and_assoc]

/-- A slot that has been taken: it is the new one, all others are as before, and what was there was
not live. -/
structure Taken (h h' : MinHeap) (s : ℕ) (slot : Slot) : Prop where
  keySlots : h'.keySlots = h.keySlots
  heap : h'.heap = h.heap
  heapCap : h'.heapCap = h.heapCap
  slotsCap : h'.slotsCap = h.slotsCap
  new : h'.slots[s]? = some slot
  other : ∀ u, u ≠ s → h'.slots[u]? = h.slots[u]?
  unused : ∀ old, h.slots[s]? = some old → old.live = false
  free : ∃ c, FreeList h'.slots h'.freeHead c
  small : h'.slots.length < noFreeSlot
  fits : h'.slots.length ≤ h'.slotsCap
  grown : h'.slots.length ≤ max h.slots.length (h.heap.length + 1)

section

variable (hs : Sound h) (hcap : h.hasInsertCapacity = true) (hfits : h.slots.length ≤ h.slotsCap)

include hs hcap hfits

lemma takeSlot_spec (slot : Slot) (hlive : slot.live = true) :
    ∃ s h', h.takeSlot slot = some (s, h') ∧ Taken h h' s slot := by
  obtain ⟨_, hroom, hcan⟩ := hasInsertCapacity_iff.mp hcap
  obtain ⟨_, hsize, _⟩ := keySlotsCanInsert_iff.mp hcan
  obtain ⟨c, hc⟩ := hs.store.free
  by_cases hfree : h.freeHead = noFreeSlot
  · have hcount := hs.slots_length hfree
    have hsmall : h.slots.length + 1 < noFreeSlot := by
      unfold noFreeSlot wordSize at *
      omega
    have hold : ∀ {u : ℕ} {old : Slot}, h.slots[u]? = some old →
        (h.slots ++ [slot])[u]? = some old := fun hu => by
      rw [getElem?_append_left (lt_of_getElem? hu), hu]
    refine ⟨h.slots.length, { h with slots := h.slots ++ [slot] }, by simp [takeSlot, hfree], rfl,
      rfl, rfl, rfl, getElem?_concat_length, fun u hu => ?_, fun old hsome => ?_,
      ⟨c, hc.chain.congr fun u _ old hu _ => hold hu, hc.nodup, fun u old hu hdead => ?_⟩, ?_, ?_,
      ?_⟩
    · show (h.slots ++ [slot])[u]? = _
      rcases Nat.lt_or_ge u h.slots.length with h1 | h1
      · exact getElem?_append_left h1
      · rw [getElem?_eq_none (by simp; omega), getElem?_eq_none h1]
    · have := lt_of_getElem? hsome
      omega
    · have hlen := lt_of_getElem? hu
      rw [length_append, length_singleton] at hlen
      rcases Nat.lt_or_ge u h.slots.length with h1 | h1
      · rw [getElem?_append_left h1] at hu
        exact hc.dead hu hdead
      · obtain rfl : u = h.slots.length := by omega
        rw [getElem?_concat_length] at hu
        cases hu
        rw [hlive] at hdead
        cases hdead
    all_goals
      simp only [length_append, length_singleton]
      omega
  · rcases c with _ | ⟨s, c⟩
    · exact absurd hc.chain hfree
    obtain ⟨hhead, free, hslot, hdead, hrest⟩ := hc.chain
    obtain ⟨hsc, hnodup⟩ := nodup_cons.mp hc.nodup
    have hsn := lt_of_getElem? hslot
    have hset : ∀ u : ℕ, (h.slots.set s slot)[u]? = if u = s then some slot else h.slots[u]? :=
      fun u => getElem?_set_lt hsn slot u
    refine ⟨s, { h with freeHead := free.heapIndex, slots := h.slots.set s slot }, ?_, rfl, rfl,
      rfl, rfl, ?_, fun u hu => ?_, fun old hsome => ?_, ⟨c, ?_, hnodup, fun u old hu hd => ?_⟩,
      ?_, ?_, ?_⟩
    · rw [takeSlot, if_neg hfree, hhead, hslot]
      rfl
    · rw [hset, if_pos rfl]
    · rw [hset, if_neg hu]
    · rw [hslot] at hsome
      cases hsome
      exact hdead
    · refine hrest.congr fun u hu old hold _ => ?_
      rw [hset, if_neg fun heq : u = s => hsc (heq ▸ hu), hold]
    · rw [hset] at hu
      split_ifs at hu with hus
      · cases hu
        rw [hlive] at hd
        cases hd
      · exact (mem_cons.mp (hc.dead hu hd)).resolve_left hus
    · simp only [length_set]
      exact hs.store.small
    · simp only [length_set]
      exact hfits
    · simp only [length_set]
      omega

theorem insert_spec {key : TimerKey} (hnew : ∀ e ∈ h.heap, e.key ≠ key) (deadlineNs : UInt64) :
    ∃ h', h.insert key deadlineNs = some h' ∧ Sound h' ∧
      h'.heap ~ ⟨key, deadlineNs, 0⟩ :: h.heap ∧ h'.keySlots.length = h.keySlots.length ∧
      h'.heapCap = h.heapCap ∧ h'.slotsCap = h.slotsCap ∧ h'.slots.length ≤ h'.slotsCap ∧
      h'.slots.length ≤ max h.slots.length (h.heap.length + 1) := by
  let new : HeapEntry := ⟨key, deadlineNs, 0⟩
  obtain ⟨s, h1, htake, hslot⟩ := takeSlot_spec hs hcap hfits
    (slotOf new h.heap.length) rfl
  obtain ⟨_, _, hcan⟩ := hasInsertCapacity_iff.mp hcap
  obtain ⟨_, _, hroom⟩ := keySlotsCanInsert_iff.mp hcan
  have hcount := hs.count
  have habs : ∀ f ∈ entries h.keySlots, f.key ≠ key := by
    intro f hf hkey
    obtain ⟨e, he, hek⟩ := mem_map.mp (hs.keys.mem_iff.mp (mem_map_of_mem hf))
    exact hnew e he (hek.trans hkey)
  obtain ⟨t, hinsert, hlen, hperm, htable⟩ :=
    LinearProbe.insert_spec (e := (⟨key, s⟩ : KeySlot)) hs.linked.table habs (by omega)
  let h2 : MinHeap := { h1 with keySlots := t, heap := h.heap ++ [new] }
  have hleads : ∀ k u, h2.Leads k u ↔ (k = key ∧ u = s) ∨ h.Leads k u := by
    intro k u
    rw [Leads, show h2.keySlots = t from rfl, hperm.mem_iff, mem_cons, KeySlot.mk.injEq, Leads]
  have hunused : ∀ k, ¬ h.Leads k s := by
    intro k hk
    obtain ⟨old, hold, hl, _⟩ := (hs.store.live_iff _ _).mp hk
    rw [hslot.unused old hold] at hl
    cases hl
  have hheap : h2.heap ~ new :: h.heap := perm_append_singleton _ _
  have hl2 : Linked h2 := by
    refine ⟨htable, (hheap.map _).nodup_iff.mpr ?_, fun i e hi => ?_⟩
    · refine nodup_cons.mpr ⟨fun hmem => ?_, hs.linked.nodup⟩
      obtain ⟨e, he, hek⟩ := mem_map.mp hmem
      exact hnew e he hek
    have hin := lt_of_getElem? hi
    rw [show h2.heap = h.heap ++ [new] from rfl, length_append,
      length_singleton] at hin
    rcases Nat.lt_or_ge i h.heap.length with h3 | h3
    · rw [show h2.heap = h.heap ++ [new] from rfl, getElem?_append_left h3] at hi
      obtain ⟨u, hu, hui⟩ := hs.linked.entry hi
      have hus : u ≠ s := by
        rintro rfl
        exact hunused _ hu
      exact ⟨u, (hleads _ _).mpr (.inr hu), (hslot.other u hus).trans hui⟩
    · obtain rfl : i = h.heap.length := by omega
      rw [show h2.heap = h.heap ++ [new] from rfl, getElem?_concat_length] at hi
      cases hi
      exact ⟨s, (hleads _ _).mpr (.inl ⟨rfl, rfl⟩), hslot.new⟩
  have hstore : Store h2 := by
    refine ⟨fun k u => ?_, hslot.free, ?_, hslot.small⟩
    · rw [hleads]
      by_cases hus : u = s
      · subst hus
        rw [show h2.slots[u]? = _ from hslot.new]
        constructor
        · rintro (⟨rfl, _⟩ | hk)
          · exact ⟨_, rfl, rfl, rfl⟩
          · exact absurd hk (hunused k)
        · rintro ⟨b, hb, _, rfl⟩
          cases hb
          exact .inl ⟨rfl, rfl⟩
      · rw [show h2.slots[u]? = _ from hslot.other u hus, ← hs.store.live_iff]
        exact ⟨fun hk => hk.resolve_left fun hc => hus hc.2, .inr⟩
    · show (entries t).length * 2 ≤ t.length
      have := hperm.length_eq
      rw [length_cons] at this
      omega
  obtain ⟨h3, hsift, hsifted⟩ := siftUp_spec (h.heap.length + 1) hl2 (i := h.heap.length)
    (by show _ < (h.heap ++ [new]).length; simp) (by omega) (hs.ordered.append new)
  have hmoved := hsifted.moved
  refine ⟨h3, ?_, ⟨hsifted.linked, hsifted.ordered, hstore.of_moved hmoved hsifted.linked, ?_⟩,
    hsifted.perm.trans hheap, ?_, ?_, ?_, ?_, ?_⟩
  · have htake' : h.takeSlot ⟨key, deadlineNs, 0, h.heap.length, true⟩ = some (s, h1) := htake
    simp only [insert, hcap, if_true, htake', Option.bind_some, hslot.keySlots, hinsert, hslot.heap]
    exact hsift
  · rw [hmoved.keySlots, nil_append]
    exact (hperm.map KeySlot.key).trans ((hs.keys.cons key).trans
      ((hheap.map HeapEntry.key).symm.trans (hsifted.perm.map HeapEntry.key).symm))
  · rw [hmoved.keySlots]
    exact hlen
  · exact hmoved.heapCap.trans hslot.heapCap
  · exact hmoved.slotsCap.trans hslot.slotsCap
  · rw [hmoved.slots_length, hmoved.slotsCap]
    exact hslot.fits
  · rw [hmoved.slots_length]
    exact hslot.grown

end

lemma Sound.rebuild (hs : Sound h) {n : ℕ} (hn : (h.heap.length + 1) * 2 ≤ n) :
    ∃ t, LinearProbe.insertAll KeySlot.key hash (replicate n none) (liveKeySlots h.slots) =
        some t ∧ t.length = n ∧ Sound { h with keySlots := t } := by
  have hlive := hs.liveKeySlots_perm
  have hcount := hs.count
  have hlen := hlive.length_eq
  obtain ⟨t, hall, htlen, hperm, htable⟩ := LinearProbe.insertAll_spec
    (LinearProbe.table_replicate KeySlot.key hash n) (liveKeySlots h.slots)
    (by simp [LinearProbe.entries_replicate])
    ((hlive.map KeySlot.key).nodup_iff.mpr hs.linked.table.nodup_keys)
    (by simp [LinearProbe.entries_replicate]; omega)
  rw [LinearProbe.entries_replicate, append_nil] at hperm
  rw [length_replicate] at htlen
  have hsame : entries t ~ entries h.keySlots := hperm.trans hlive
  have hleads : ∀ k u, Leads { h with keySlots := t } k u ↔ h.Leads k u := fun k u =>
    hsame.mem_iff
  refine ⟨t, hall, htlen, ⟨htable, hs.linked.nodup, fun i e hi => ?_⟩, hs.ordered,
    ⟨fun k u => ?_, hs.store.free, ?_, hs.store.small⟩, ?_⟩
  · obtain ⟨s, hlead, hslot⟩ := hs.linked.entry hi
    exact ⟨s, (hleads _ _).mpr hlead, hslot⟩
  · rw [hleads]
    exact hs.store.live_iff k u
  · show (entries t).length * 2 ≤ t.length
    have := hsame.length_eq
    omega
  · exact (hsame.map KeySlot.key).trans (keys hs)

/-- **Growth** makes room for one more timer and changes nothing else. -/
theorem reserveForInsert_spec (hs : Sound h) {peak : ℕ} (hst : Stored h peak)
    (hsize : (h.heap.length + 1) * 2 < wordSize) (hpeak : h.heap.length + 1 ≤ peak) :
    ∃ h', h.reserveForInsert = some h' ∧ Sound h' ∧ Stored h' peak ∧ h'.heap = h.heap ∧
      h'.hasInsertCapacity = true := by
  have hheapCap : h.heap.length < reserve h.heap.length h.heapCap 1 :=
    add_le_reserve hst.heap_le 1
  let h2 : MinHeap := { h with
    heapCap := reserve h.heap.length h.heapCap 1
    slotsCap := if h.freeHead = noFreeSlot then reserve h.slots.length h.slotsCap 1
      else h.slotsCap }
  have hkeys := keys hs
  have hs2 : Sound h2 := ⟨⟨hs.linked.table, hs.linked.nodup, hs.linked.entry⟩, hs.ordered,
    ⟨hs.store.live_iff, hs.store.free, hs.store.room, hs.store.small⟩, hkeys⟩
  have hslotsCap : h.slots.length ≤ h2.slotsCap ∧
      (h.freeHead ≠ noFreeSlot ∨ h.slots.length < h2.slotsCap) ∧
      h2.slotsCap ≤ max 4 (2 * peak) := by
    by_cases hfree : h.freeHead = noFreeSlot
    · have hadd := add_le_reserve hst.slots_le 1
      have hcount := hs.slots_length hfree
      have hle := reserve_le hst.slotsCap_peak (hcount ▸ hpeak)
      simp only [h2, if_pos hfree]
      exact ⟨by omega, .inr (by omega), hle⟩
    · simp only [h2, if_neg hfree]
      exact ⟨hst.slots_le, .inl hfree, hst.slotsCap_peak⟩
  have hst2 : Stored h2 peak := ⟨hheapCap.le, hslotsCap.1, hst.slots_peak, hst.keySlots_peak,
    reserve_le hst.heapCap_peak hpeak, hslotsCap.2.2⟩
  have hgrow : h.reserveForInsert = if h2.keySlotsCanInsert then some h2 else
      (requiredBuckets h2.heap.length).bind fun required =>
        (LinearProbe.insertAll KeySlot.key hash (replicate (max required 8) none)
          (liveKeySlots h2.slots)).map fun keySlots => { h2 with keySlots := keySlots } := by
    by_cases hfree : h.freeHead = noFreeSlot <;> simp [reserveForInsert, h2, hfree]
  by_cases hcan : h2.keySlotsCanInsert = true
  · refine ⟨h2, by rw [hgrow, if_pos hcan], hs2, hst2, rfl,
      hasInsertCapacity_iff.mpr ⟨hheapCap, hslotsCap.2.1, hcan⟩⟩
  obtain ⟨t, hall, htlen, hs3⟩ := hs2.rebuild
    (show (h2.heap.length + 1) * 2 ≤ max ((h2.heap.length + 1) * 2) 8 from le_max_left _ _)
  have hreq : requiredBuckets h2.heap.length = some ((h2.heap.length + 1) * 2) := if_pos hsize
  refine ⟨{ h2 with keySlots := t }, ?_, hs3, ⟨hst2.heap_le, hst2.slots_le, hst2.slots_peak, ?_,
    hst2.heapCap_peak, hst2.slotsCap_peak⟩, rfl, ?_⟩
  · rw [hgrow, if_neg hcan, hreq, Option.bind_some, hall]
    rfl
  · show t.length ≤ _
    rw [htlen, show h2.heap = h.heap from rfl]
    omega
  refine hasInsertCapacity_iff.mpr ⟨hheapCap, hslotsCap.2.1, keySlotsCanInsert_iff.mpr ?_⟩
  refine ⟨fun hnil => ?_, hsize, ?_⟩
  · have : t.length = 0 := by rw [show t = [] from hnil]; rfl
    omega
  show _ ≤ t.length
  rw [htlen]
  exact le_max_left _ _

end

end TxKernel.Time.MinHeap
