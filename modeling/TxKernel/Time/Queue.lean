import TxKernel.Time.Sifting

/-!
The operations of the queue keep heap, slots, free list and index together, and none panics. While a
removed entry's slot is not recycled the index knows its key, so the invariant lists such keys.
-/

namespace TxKernel.Time.MinHeap

open List LinearProbe Option
open LinearProbe (entries getElem?_set_lt lt_of_getElem? getElem?_some_of_lt)

/-- The free list from one slot on. -/
def Chain (slots : List Slot) : ℕ → List ℕ → Prop
  | head, [] => head = noFreeSlot
  | head, s :: c => head = s ∧
      ∃ slot, slots[s]? = some slot ∧ slot.live = false ∧ Chain slots slot.heapIndex c

/-- The free list holds the dead slots, each once. -/
structure FreeList (slots : List Slot) (head : ℕ) (c : List ℕ) : Prop where
  chain : Chain slots head c
  nodup : c.Nodup
  dead : ∀ ⦃s : ℕ⦄ ⦃slot : Slot⦄, slots[s]? = some slot → slot.live = false → s ∈ c

/-- The index knows the live slots, the free list the dead ones. -/
structure Store (h : MinHeap) : Prop where
  live_iff : ∀ key s, h.Leads key s ↔
    ∃ slot, h.slots[s]? = some slot ∧ slot.live = true ∧ slot.key = key
  free : ∃ c, FreeList h.slots h.freeHead c
  room : (entries h.keySlots).length * 2 ≤ h.keySlots.length
  small : h.slots.length < noFreeSlot

/-- The invariant of the queue, with the keys that have left the heap but not yet the index. -/
structure SoundWith (h : MinHeap) (extra : List TimerKey) : Prop where
  linked : Linked h
  ordered : HeapOrder.Ordered rank h.heap
  store : Store h
  keys : (entries h.keySlots).map KeySlot.key ~ extra ++ h.heap.map HeapEntry.key

variable {slots : List Slot} {head : ℕ} {c : List ℕ}

lemma Chain.congr {slots' : List Slot} (h : Chain slots head c)
    (hsame : ∀ s ∈ c, ∀ slot, slots[s]? = some slot → slot.live = false → slots'[s]? = some slot) :
    Chain slots' head c := by
  induction c generalizing head with
  | nil => exact h
  | cons s c ih =>
    obtain ⟨rfl, slot, hslot, hdead, hrest⟩ := h
    exact ⟨rfl, slot, hsame _ mem_cons_self slot hslot hdead, hdead,
      ih hrest fun u hu => hsame u (mem_cons_of_mem _ hu)⟩

lemma Chain.mem (h : Chain slots head c) {s : ℕ} (hs : s ∈ c) :
    ∃ slot, slots[s]? = some slot ∧ slot.live = false := by
  induction c generalizing head with
  | nil => cases hs
  | cons u c ih =>
    obtain ⟨rfl, slot, hslot, hdead, hrest⟩ := h
    rcases mem_cons.mp hs with rfl | hs
    · exact ⟨slot, hslot, hdead⟩
    · exact ih hrest hs

def Sound (h : MinHeap) : Prop := SoundWith h []

/-- How much memory the queue takes, against the greatest number of timers it has held. -/
structure Stored (h : MinHeap) (peak : ℕ) : Prop where
  heap_le : h.heap.length ≤ h.heapCap
  slots_le : h.slots.length ≤ h.slotsCap
  slots_peak : h.slots.length ≤ peak
  keySlots_peak : h.keySlots.length ≤ max 8 (2 * peak)
  heapCap_peak : h.heapCap ≤ max 4 (2 * peak)
  slotsCap_peak : h.slotsCap ≤ max 4 (2 * peak)

structure SameStorage (h h' : MinHeap) : Prop where
  slots : h'.slots.length = h.slots.length
  keySlots : h'.keySlots.length = h.keySlots.length
  heapCap : h'.heapCap = h.heapCap
  slotsCap : h'.slotsCap = h.slotsCap

section
variable {h h' : MinHeap} {peak i : ℕ}

lemma SameStorage.refl (h : MinHeap) : SameStorage h h := ⟨rfl, rfl, rfl, rfl⟩

lemma SameStorage.trans {h1 : MinHeap} (a : SameStorage h h1) (b : SameStorage h1 h') :
    SameStorage h h' :=
  ⟨b.slots.trans a.slots, b.keySlots.trans a.keySlots, b.heapCap.trans a.heapCap,
    b.slotsCap.trans a.slotsCap⟩

lemma Moved.sameStorage (hm : Moved h h') : SameStorage h h' :=
  ⟨hm.slots_length, by rw [hm.keySlots], hm.heapCap, hm.slotsCap⟩

lemma Stored.of_same (hst : Stored h peak) (hs : SameStorage h h')
    (hheap : h'.heap.length ≤ h.heap.length) : Stored h' peak := by
  obtain ⟨h1, h2, h3, h4, h5, h6⟩ := hst
  exact ⟨by rw [hs.heapCap]; omega, by rw [hs.slotsCap, hs.slots]; exact h2,
    by rw [hs.slots]; exact h3, by rw [hs.keySlots]; exact h4, by rw [hs.heapCap]; exact h5,
    by rw [hs.slotsCap]; exact h6⟩

lemma Store.keySlots_room (hs : Store h) :
    h.keySlots = [] ∨ (entries h.keySlots).length < h.keySlots.length := by
  have := hs.room
  rcases Nat.eq_zero_or_pos h.keySlots.length with h0 | h0
  · exact .inl (length_eq_zero_iff.mp h0)
  · exact .inr (by omega)

lemma Store.of_moved (hs : Store h) (hm : Moved h h') (hl : Linked h') : Store h' := by
  have hleads : ∀ key s, h'.Leads key s ↔ h.Leads key s := fun key s => by
    rw [Leads, Leads, hm.keySlots]
  -- a slot is either one of an entry of the heap, or as it was
  have hsame : ∀ s, (∃ i e, h'.heap[i]? = some e ∧ h.Leads e.key s ∧
      h'.slots[s]? = some (slotOf e i)) ∨
      (h'.slots[s]? = h.slots[s]?) := by
    intro s
    by_cases hlinked : ∃ e ∈ h'.heap, h.Leads e.key s
    · obtain ⟨e, he, hes⟩ := hlinked
      obtain ⟨i, hi⟩ := mem_iff_getElem?.mp he
      obtain ⟨t, ht, hti⟩ := hl.entry hi
      have : t = s := leads_unique hl.table ht ((hleads _ _).mpr hes)
      subst this
      exact .inl ⟨i, e, hi, hes, hti⟩
    · exact .inr (hm.slots s fun e he hc => hlinked ⟨e, he, hc⟩)
  have hlive : ∀ key s, h'.Leads key s ↔
      ∃ slot, h'.slots[s]? = some slot ∧ slot.live = true ∧ slot.key = key := by
    intro key s
    rw [hleads]
    rcases hsame s with ⟨i, e, _, hes, hslot⟩ | hslot
    · rw [hslot]
      constructor
      · intro hk
        obtain ⟨a, ha, _, rfl⟩ := (hs.live_iff _ _).mp hk
        obtain ⟨b, hb, _, hbk⟩ := (hs.live_iff _ _).mp hes
        rw [ha] at hb
        cases hb
        exact ⟨_, rfl, rfl, hbk.symm⟩
      · rintro ⟨slot, heq, _, rfl⟩
        cases heq
        exact hes
    · rw [hslot]
      exact hs.live_iff key s
  have hdead : ∀ (s : ℕ) (slot : Slot), slot.live = false → (h'.slots[s]? = some slot ↔
      h.slots[s]? = some slot) := by
    intro s slot hdead
    rcases hsame s with ⟨i, e, _, hes, hslot⟩ | hslot
    · obtain ⟨b, hb, hblive, _⟩ := (hs.live_iff _ _).mp hes
      rw [hslot, hb]
      constructor <;> rintro heq <;> cases heq
      · cases hdead
      rw [hblive] at hdead
      cases hdead
    · rw [hslot]
  obtain ⟨c, hc⟩ := hs.free
  refine ⟨hlive, ⟨c, ?_, hc.nodup, ?_⟩, by rw [hm.keySlots]; exact hs.room,
    by rw [hm.slots_length]; exact hs.small⟩
  · rw [hm.freeHead]
    exact hc.chain.congr fun s _ slot hslot hd => (hdead s slot hd).mpr hslot
  · exact fun s slot hslot hd => hc.dead ((hdead s slot hd).mp hslot) hd

lemma swapRemove_perm {α : Type*} {l : List α} {x last : α} (hi : l[i]? = some x)
    (hlast : l.getLast? = some last) : l ~ x :: (l.set i last).dropLast := by
  obtain ⟨d, rfl⟩ : ∃ d, l = d ++ [last] := by
    have hne : l ≠ [] := by
      rintro rfl
      cases hlast
    rw [getLast?_eq_some_getLast hne] at hlast
    exact ⟨l.dropLast, by rw [← some.inj hlast, dropLast_append_getLast]⟩
  have hlt := lt_of_getElem? hi
  rw [length_append, length_singleton] at hlt
  rcases Nat.lt_or_ge i d.length with h1 | h1
  · rw [getElem?_append_left h1] at hi
    have hx : d[i] = x := (List.getElem?_eq_some_iff.mp hi).2
    rw [List.set_append_left _ _ h1, List.dropLast_concat]
    have ha : d ~ x :: d.eraseIdx i := by
      rw [← hx]
      exact (getElem_cons_eraseIdx_perm h1).symm
    calc d ++ [last] ~ last :: d := perm_append_singleton _ _
      _ ~ last :: x :: d.eraseIdx i := ha.cons last
      _ ~ x :: last :: d.eraseIdx i := .swap _ _ _
      _ ~ x :: d.set i last := (set_perm_cons_eraseIdx h1 last).symm.cons x
  · have hid : i = d.length := by omega
    subst hid
    rw [getElem?_concat_length] at hi
    cases hi
    rw [set_of_getElem? getElem?_concat_length, dropLast_concat]
    exact perm_append_singleton _ _

/-- **Removal of an entry**: what comes last takes its place. -/
theorem removeAt_spec (hl : Linked h) (ho : HeapOrder.Ordered rank h.heap) {e : HeapEntry}
    (hi : h.heap[i]? = some e) :
    ∃ h', h.removeAt i = some (e, h') ∧ Linked h' ∧ HeapOrder.Ordered rank h'.heap ∧
      Moved h h' ∧ h.heap ~ e :: h'.heap := by
  have hin := lt_of_getElem? hi
  obtain ⟨last, hlast⟩ := getElem?_some_of_lt (show h.heap.length - 1 < h.heap.length by omega)
  have hgetLast : h.heap.getLast? = some last := by rw [getLast?_eq_getElem?, hlast]
  have hperm := swapRemove_perm hi hgetLast
  -- the heap without the entry
  have hcut : ∀ {k : ℕ} {f : HeapEntry}, ((h.heap.set i last).dropLast)[k]? = some f →
      k < h.heap.length - 1 ∧ ((k = i ∧ f = last) ∨ (k ≠ i ∧ h.heap[k]? = some f)) := by
    intro k f hk
    rw [getElem?_dropLast, length_set] at hk
    split_ifs at hk with h1
    rw [getElem?_set_lt hin] at hk
    split_ifs at hk with h2
    · exact ⟨h1, .inl ⟨h2, by simpa using hk.symm⟩⟩
    · exact ⟨h1, .inr ⟨h2, hk⟩⟩
  have hnodup : (((h.heap.set i last).dropLast).map HeapEntry.key).Nodup := by
    have := (hperm.map HeapEntry.key).nodup_iff.mp hl.nodup
    rw [map_cons, nodup_cons] at this
    exact this.2
  have hcutlen : ((h.heap.set i last).dropLast).length = h.heap.length - 1 := by simp
  rcases Nat.lt_or_ge i (h.heap.length - 1) with hlt | hge
  · obtain ⟨s, hs, hslot⟩ := hl.entry hlast
    have hsn := lt_of_getElem? hslot
    let h2 : MinHeap := { h with
      heap := (h.heap.set i last).dropLast
      slots := h.slots.set s (slotOf last i) }
    have hset : ({ h with heap := (h.heap.set i last).dropLast } : MinHeap).setHeapIndex
        last.key i = some h2 :=
      setHeapIndex_eq { h with heap := (h.heap.set i last).dropLast } hl.table hs hslot i
    have hlast2 : h2.heap[i]? = some last := by
      show ((h.heap.set i last).dropLast)[i]? = _
      rw [getElem?_dropLast, length_set, if_pos hlt, getElem?_set_lt hin, if_pos rfl]
    have hl2 : Linked h2 := by
      refine ⟨hl.table, hnodup, fun k f hk => ?_⟩
      obtain ⟨hkn, ⟨rfl, rfl⟩ | ⟨hki, hkf⟩⟩ := hcut hk
      · exact ⟨s, hs, by rw [getElem?_set_lt hsn, if_pos rfl]⟩
      obtain ⟨u, hu, huk⟩ := hl.entry hkf
      have hus : u ≠ s := by
        rintro rfl
        have := place_of_slot huk hslot
        omega
      exact ⟨u, hu, by rw [getElem?_set_lt hsn, if_neg hus, huk]⟩
    have hmoved : Moved h h2 := by
      refine ⟨rfl, rfl, rfl, rfl, by simp [h2], fun u hu => ?_⟩
      have hus : u ≠ s := by
        rintro rfl
        exact hu last (mem_of_getElem? hlast2) hs
      rw [getElem?_set_lt hsn, if_neg hus]
    have haround : HeapOrder.Around rank h2.heap i := by
      refine ho.around fun j x hj hx => ?_
      obtain ⟨_, ⟨rfl, _⟩ | ⟨_, hx'⟩⟩ := hcut hx
      · exact absurd rfl hj
      · exact hx'
    obtain ⟨h3, hrepair, hsifted⟩ := repair_spec hl2
      (show i < h2.heap.length by show i < _; rw [hcutlen]; exact hlt) haround
    refine ⟨h3, ?_, hsifted.linked, hsifted.ordered,
      hmoved.trans hsifted.moved fun _ he => hsifted.perm.mem_iff.mpr he,
      hperm.trans (hsifted.perm.symm.cons e)⟩
    simp only [removeAt, hi, hgetLast, hcutlen, hlt, if_true, hset, bind_some, hrepair, map_some]
  · have hcut' : ∀ {k : ℕ} {f : HeapEntry}, ((h.heap.set i last).dropLast)[k]? = some f →
        h.heap[k]? = some f := by
      intro k f hk
      obtain ⟨hkn, ⟨rfl, _⟩ | ⟨_, hkf⟩⟩ := hcut hk
      · omega
      · exact hkf
    refine ⟨{ h with heap := (h.heap.set i last).dropLast }, ?_, ?_, ?_, ?_, hperm⟩
    · simp only [removeAt, hi, hgetLast, hcutlen, Nat.not_lt.mpr hge, if_false]
    · exact ⟨hl.table, hnodup, fun k f hk => hl.entry (hcut' hk)⟩
    · exact fun j x y hj _ hx hy => ho hj trivial (hcut' hx) (hcut' hy)
    · exact ⟨rfl, rfl, rfl, rfl, rfl, fun _ _ => rfl⟩

lemma Stored.mono {peak' : ℕ} (hst : Stored h peak) (hle : peak ≤ peak') : Stored h peak' := by
  obtain ⟨h1, h2, h3, h4, h5, h6⟩ := hst
  exact ⟨h1, h2, by omega, by omega, by omega, by omega⟩

variable {extra : List TimerKey} {key : TimerKey}

lemma slot_of_leads (ht : LinearProbe.Table KeySlot.key hash h.keySlots) {s : ℕ}
    (hs : h.Leads key s) : h.slot key = some h.slots[s]? := by
  simp [slot, slotIndex_of_leads ht hs]

lemma SoundWith.nodup_keys (hs : SoundWith h extra) : (extra ++ h.heap.map HeapEntry.key).Nodup :=
  hs.keys.nodup_iff.mp hs.linked.table.nodup_keys

/-- **Recycling**: the key leaves the index, and its slot goes to the front of the free list. -/
theorem recycleSlot_spec (hs : SoundWith h (key :: extra)) :
    ∃ h', h.recycleSlot key = some h' ∧ SoundWith h' extra ∧ h'.heap = h.heap ∧
      SameStorage h h' := by
  obtain ⟨⟨key, s⟩, hlead, rfl⟩ := mem_map.mp (hs.keys.mem_iff.mpr mem_cons_self)
  obtain ⟨slot, hslot, hlive, hkey⟩ := (hs.store.live_iff _ _).mp hlead
  have hsn := lt_of_getElem? hslot
  have hroom : (entries h.keySlots).length < h.keySlots.length := by
    have := hs.store.room
    have := length_pos_of_mem hlead
    omega
  obtain ⟨t, herase, hlen, hperm, htable⟩ :=
    erase_spec hs.linked.table hroom hlead
  have hnodup := hs.nodup_keys
  have hkeys : ((entries h.keySlots).map KeySlot.key).Nodup := hs.linked.table.nodup_keys
  have hgone : ∀ u, (⟨key, u⟩ : KeySlot) ∉ entries t := by
    intro u hu
    have hcons := (hperm.map KeySlot.key).nodup_iff.mp hkeys
    rw [map_cons, nodup_cons] at hcons
    exact hcons.1 (mem_map.mpr ⟨_, hu, rfl⟩)
  have hleads : ∀ k u, (⟨k, u⟩ : KeySlot) ∈ entries t ↔ h.Leads k u ∧ k ≠ key := by
    intro k u
    rw [Leads, hperm.mem_iff, mem_cons]
    constructor
    · intro hu
      exact ⟨.inr hu, by rintro rfl; exact hgone u hu⟩
    rintro ⟨heq | hu, hne⟩
    · cases heq
      exact absurd rfl hne
    · exact hu
  let h1 : MinHeap := { h with
    keySlots := t
    slots := h.slots.set s { slot with live := false, heapIndex := h.freeHead }
    freeHead := s }
  have hother : ∀ {u}, u ≠ s → h1.slots[u]? = h.slots[u]? := by
    intro u hu
    show (h.slots.set s _)[u]? = _
    rw [getElem?_set_lt hsn, if_neg hu]
  have hself : h1.slots[s]? = some { slot with live := false, heapIndex := h.freeHead } := by
    show (h.slots.set s _)[s]? = _
    rw [getElem?_set_lt hsn, if_pos rfl]
  refine ⟨h1, ?_, ⟨⟨htable, hs.linked.nodup, ?_⟩, hs.ordered, ⟨?_, ?_, ?_, ?_⟩, ?_⟩, rfl,
    by simp [h1], hlen, rfl, rfl⟩
  · simp [recycleSlot, herase, hslot, hlive, h1]
  · intro i e hi
    obtain ⟨u, hu, hui⟩ := hs.linked.entry hi
    have hne : e.key ≠ key := by
      rintro rfl
      rw [cons_append, nodup_cons] at hnodup
      exact hnodup.1 (mem_append_right _ (mem_map_of_mem (mem_of_getElem? hi)))
    have hus : u ≠ s := by
      rintro rfl
      rw [hslot] at hui
      cases hui
      exact hne hkey
    exact ⟨u, (hleads _ _).mpr ⟨hu, hne⟩, by rw [hother hus, hui]⟩
  · intro k u
    rw [Leads, hleads]
    by_cases hus : u = s
    · subst hus
      rw [hself]
      constructor
      · rintro ⟨hk, hne⟩
        obtain ⟨b, hb, _, hbk⟩ := (hs.store.live_iff _ _).mp hk
        rw [hslot] at hb
        cases hb
        exact absurd (hbk.symm.trans hkey) hne
      · rintro ⟨b, hb, hbl, _⟩
        cases hb
        cases hbl
    · rw [hother hus, ← hs.store.live_iff]
      refine ⟨fun hk => hk.1, fun hk => ⟨hk, ?_⟩⟩
      rintro rfl
      exact hus (leads_unique hs.linked.table hk hlead)
  · obtain ⟨c, hc⟩ := hs.store.free
    have hsc : s ∉ c := by
      intro hmem
      obtain ⟨b, hb, hbd⟩ := hc.chain.mem hmem
      rw [hslot] at hb
      cases hb
      rw [hlive] at hbd
      cases hbd
    refine ⟨s :: c, ⟨rfl, _, hself, rfl, hc.chain.congr fun u hu b hb _ => ?_⟩,
      nodup_cons.mpr ⟨hsc, hc.nodup⟩, fun u b hb hbd => ?_⟩
    · rw [hother (fun heq => hsc (heq ▸ hu)), hb]
    by_cases hus : u = s
    · exact hus ▸ mem_cons_self
    rw [hother hus] at hb
    exact mem_cons_of_mem _ (hc.dead hb hbd)
  · have hroom2 := hs.store.room
    have hcount := hperm.length_eq
    rw [length_cons] at hcount
    show (entries t).length * 2 ≤ t.length
    omega
  · show (h.slots.set s _).length < _
    rw [length_set]
    exact hs.store.small
  · have hk := (hperm.map KeySlot.key).symm.trans hs.keys
    exact hk.cons_inv

end

end TxKernel.Time.MinHeap
