import TxKernel.Time.MinHeap

/-!
Sifting keeps the heap and its index together: a swap moves two entries and corrects both slots, and
the loops are chains of swaps.
-/

namespace TxKernel.Time.MinHeap

open List LinearProbe
open LinearProbe (entries getElem?_set_lt lt_of_getElem? getElem?_some_of_lt)

def rank (e : HeapEntry) : ℕ ×ₗ ℕ := toLex (e.deadlineNs.toNat, e.key.raw.toNat)

lemma less_iff (l r : HeapEntry) : less l r = true ↔ rank l < rank r := by
  simp [less, rank, Prod.Lex.toLex_lt_toLex, UInt64.lt_iff_toNat_lt, UInt64.toNat_inj]

lemma not_less_iff (l r : HeapEntry) : less l r = false ↔ rank r ≤ rank l := by
  rw [← Bool.not_eq_true, less_iff, not_lt]

def slotOf (e : HeapEntry) (index : ℕ) : Slot := ⟨e.key, e.deadlineNs, e.generation, index, true⟩

def Leads (h : MinHeap) (key : TimerKey) (s : ℕ) : Prop := ⟨key, s⟩ ∈ entries h.keySlots

/-- Every entry of the heap is found through its key. -/
structure Linked (h : MinHeap) : Prop where
  table : LinearProbe.Table KeySlot.key hash h.keySlots
  nodup : (h.heap.map HeapEntry.key).Nodup
  entry : ∀ ⦃i : ℕ⦄ ⦃e : HeapEntry⦄, h.heap[i]? = some e →
    ∃ s, h.Leads e.key s ∧ h.slots[s]? = some (slotOf e i)

/-- What a step that only moves entries leaves alone. -/
structure Moved (h h' : MinHeap) : Prop where
  keySlots : h'.keySlots = h.keySlots
  freeHead : h'.freeHead = h.freeHead
  heapCap : h'.heapCap = h.heapCap
  slotsCap : h'.slotsCap = h.slotsCap
  slots_length : h'.slots.length = h.slots.length
  slots : ∀ s, (∀ e ∈ h'.heap, ¬ h.Leads e.key s) → h'.slots[s]? = h.slots[s]?

lemma Moved.refl (h : MinHeap) : Moved h h := ⟨rfl, rfl, rfl, rfl, rfl, fun _ _ => rfl⟩

lemma Moved.trans {h h1 h2 : MinHeap} (a : Moved h h1) (b : Moved h1 h2)
    (hheap : ∀ e ∈ h1.heap, e ∈ h2.heap) : Moved h h2 := by
  refine ⟨b.keySlots.trans a.keySlots, b.freeHead.trans a.freeHead, b.heapCap.trans a.heapCap,
    b.slotsCap.trans a.slotsCap, b.slots_length.trans a.slots_length, fun s hs => ?_⟩
  rw [b.slots s (by simpa only [Leads, a.keySlots] using hs)]
  exact a.slots s fun e he => hs e (hheap e he)

section
variable {h : MinHeap}

variable {key : TimerKey} {i : ℕ} {s j : ℕ}

section

variable (ht : LinearProbe.Table KeySlot.key hash h.keySlots) (hs : h.Leads key s)

include ht hs

lemma slotIndex_of_leads : h.slotIndex key = some (some s) := by
  obtain ⟨p, hp⟩ := mem_entries.mp hs
  have hfind := find_of_getElem? ht hp
  simp [slotIndex, hfind, hp]

lemma leads_unique {t : ℕ} (ht' : h.Leads key t) : s = t := by
  have h1 := slotIndex_of_leads ht hs
  rw [slotIndex_of_leads ht ht'] at h1
  simpa using h1.symm

end

lemma setHeapIndex_eq (h : MinHeap) (ht : LinearProbe.Table KeySlot.key hash h.keySlots)
    (hs : h.Leads key s) {slot : Slot} (hslot : h.slots[s]? = some slot) (index : ℕ) :
    h.setHeapIndex key index =
      some { h with slots := h.slots.set s { slot with heapIndex := index } } := by
  simp [setHeapIndex, slotIndex_of_leads ht hs, hslot]

lemma place_of_slot {e f : HeapEntry} (hes : h.slots[s]? = some (slotOf e i))
    (hfs : h.slots[s]? = some (slotOf f j)) : i = j := by
  rw [hes] at hfs
  exact congrArg Slot.heapIndex (Option.some.inj hfs)

/-- **A swap** exchanges two entries and corrects their slots. -/
theorem swapEntries_spec (hl : Linked h) (hij : i ≠ j) {l r : HeapEntry} (hi : h.heap[i]? = some l)
    (hj : h.heap[j]? = some r) :
    ∃ h', h.swapEntries i j = some h' ∧ Linked h' ∧ Moved h h' ∧ h'.heap ~ h.heap ∧
      HeapOrder.Swapped h.heap h'.heap i j := by
  obtain ⟨s, hs, hsi⟩ := hl.entry hi
  obtain ⟨t, ht, htj⟩ := hl.entry hj
  have hin := lt_of_getElem? hi
  have hjn := lt_of_getElem? hj
  have hst : s ≠ t := by
    rintro rfl
    exact hij (place_of_slot hsi htj)
  have hsn := lt_of_getElem? hsi
  have htn := lt_of_getElem? htj
  -- the heap after the swap, and the slots after both corrections
  have hheap : ∀ k : ℕ, ((h.heap.set i r).set j l)[k]? =
      if k = i then some r else if k = j then some l else h.heap[k]? := by
    intro k
    rw [getElem?_set_lt (by simpa using hjn), getElem?_set_lt hin]
    split_ifs <;> first | rfl | omega
  have hperm : (h.heap.set i r).set j l ~ h.heap := by
    have hl' : h.heap[i] = l := (List.getElem?_eq_some_iff.mp hi).2
    have hr' : h.heap[j] = r := (List.getElem?_eq_some_iff.mp hj).2
    rw [← hl', ← hr']
    exact List.set_set_perm hin hjn
  refine ⟨{ h with
      heap := (h.heap.set i r).set j l
      slots := (h.slots.set t (slotOf r i)).set s (slotOf l j) }, ?_, ?_, ?_, hperm, ?_⟩
  · have h1 : ({ h with heap := (h.heap.set i r).set j l } : MinHeap).setHeapIndex r.key i =
        some { h with heap := (h.heap.set i r).set j l, slots := h.slots.set t (slotOf r i) } :=
      setHeapIndex_eq { h with heap := (h.heap.set i r).set j l } hl.table ht htj i
    have hs' : (h.slots.set t (slotOf r i))[s]? = some (slotOf l i) := by
      rw [getElem?_set_lt htn, if_neg hst, hsi]
    simp only [swapEntries, hi, hj, h1, Option.bind_some]
    exact setHeapIndex_eq { h with
      heap := (h.heap.set i r).set j l
      slots := h.slots.set t (slotOf r i) } hl.table hs hs' j
  · refine ⟨hl.table, (hperm.map _).nodup_iff.mpr hl.nodup, fun k e hk => ?_⟩
    rw [hheap] at hk
    split_ifs at hk with h1 h2
    · obtain rfl : r = e := by simpa using hk
      subst h1
      exact ⟨t, ht, by rw [getElem?_set_lt (by simpa using hsn), if_neg hst.symm,
        getElem?_set_lt htn, if_pos rfl]⟩
    · obtain rfl : l = e := by simpa using hk
      subst h2
      exact ⟨s, hs, by rw [getElem?_set_lt (by simpa using hsn), if_pos rfl]⟩
    obtain ⟨u, hu, huk⟩ := hl.entry hk
    refine ⟨u, hu, ?_⟩
    have hus : u ≠ s := by
      rintro rfl
      exact h1 (place_of_slot huk hsi)
    have hut : u ≠ t := by
      rintro rfl
      exact h2 (place_of_slot huk htj)
    rw [getElem?_set_lt (by simpa using hsn), if_neg hus, getElem?_set_lt htn, if_neg hut, huk]
  · refine ⟨rfl, rfl, rfl, rfl, by simp, fun u hu => ?_⟩
    have hus : u ≠ s := by
      rintro rfl
      exact hu l (hperm.mem_iff.mpr (mem_of_getElem? hi)) hs
    have hut : u ≠ t := by
      rintro rfl
      exact hu r (hperm.mem_iff.mpr (mem_of_getElem? hj)) ht
    rw [getElem?_set_lt (by simpa using hsn), if_neg hus, getElem?_set_lt htn, if_neg hut]
  · intro k
    rw [hheap, hi, hj]

/-- What sifting comes to: the same entries, found through their keys, in order. -/
structure Sifted (h h' : MinHeap) : Prop where
  linked : Linked h'
  moved : Moved h h'
  perm : h'.heap ~ h.heap
  ordered : HeapOrder.Ordered rank h'.heap

lemma Sifted.of_moved {h1 h2 : MinHeap} (hmoved : Moved h h1) (hperm : h1.heap ~ h.heap)
    (hs : Sifted h1 h2) : Sifted h h2 :=
  ⟨hs.linked, hmoved.trans hs.moved fun _ he => hs.perm.mem_iff.mpr he, hs.perm.trans hperm,
    hs.ordered⟩

theorem siftUp_spec (fuel : ℕ) (hl : Linked h) (hi : i < h.heap.length) (hfuel : i ≤ fuel)
    (hup : HeapOrder.UpTo rank h.heap i) : ∃ h', siftUp fuel h i = some h' ∧ Sifted h h' := by
  induction fuel generalizing h i with
  | zero =>
    obtain rfl : i = 0 := by omega
    exact ⟨h, rfl, hl, .refl h, .rfl, hup.ordered_zero⟩
  | succ fuel ih =>
    rcases Nat.eq_zero_or_pos i with rfl | hpos
    · exact ⟨h, rfl, hl, .refl h, .rfl, hup.ordered_zero⟩
    obtain ⟨x, hx⟩ := getElem?_some_of_lt hi
    obtain ⟨y, hy⟩ := getElem?_some_of_lt (show (i - 1) / 2 < h.heap.length by omega)
    by_cases hless : less x y = true
    · obtain ⟨h1, hswap, hl1, hmoved, hperm, hswapped⟩ :=
        swapEntries_spec hl (show i ≠ (i - 1) / 2 by omega) hx hy
      have hup1 := hup.swap hpos hx hy ((less_iff x y).mp hless) hswapped
      have hlen := hperm.length_eq
      obtain ⟨h2, hsift, hsifted⟩ := ih hl1 (by omega) (by omega) hup1
      exact ⟨h2, by simp [siftUp, hpos.ne', hx, hy, hless, hswap, hsift],
        .of_moved hmoved hperm hsifted⟩
    · have hle := (not_less_iff x y).mp (by simpa using hless)
      exact ⟨h, by simp [siftUp, hpos.ne', hx, hy, hless], hl, .refl h, .rfl,
        hup.ordered_of_le hx hy hle⟩

lemma leastChild_spec (hi : i * 2 + 1 < h.heap.length) :
    ∃ x, h.heap[h.leastChild i]? = some x ∧ 0 < h.leastChild i ∧ (h.leastChild i - 1) / 2 = i ∧
      ∀ j y, 0 < j → (j - 1) / 2 = i → h.heap[j]? = some y → rank x ≤ rank y := by
  obtain ⟨l, hl⟩ := getElem?_some_of_lt hi
  -- it is one of the two children, and neither of them is below it
  have hleast : ∃ x, h.heap[h.leastChild i]? = some x ∧
      (h.leastChild i = i * 2 + 1 ∨ h.leastChild i = i * 2 + 1 + 1) ∧ rank x ≤ rank l ∧
      ∀ r, h.heap[i * 2 + 1 + 1]? = some r → rank x ≤ rank r := by
    rcases hr : h.heap[i * 2 + 1 + 1]? with _ | r
    · exact ⟨l, by simp [leastChild, hl, hr], .inl (by simp [leastChild, hl, hr]), le_rfl, by simp⟩
    by_cases hless : less r l = true
    · exact ⟨r, by simp [leastChild, hl, hr, hless], .inr (by simp [leastChild, hl, hr, hless]),
        ((less_iff _ _).mp hless).le, by simp⟩
    · exact ⟨l, by simp [leastChild, hl, hr, hless], .inl (by simp [leastChild, hl, hr, hless]),
        le_rfl, by simpa using (not_less_iff _ _).mp (by simpa using hless)⟩
  obtain ⟨x, hx, hat, hxl, hxr⟩ := hleast
  refine ⟨x, hx, by omega, by omega, fun j y hj hji hy => ?_⟩
  obtain rfl | rfl : j = i * 2 + 1 ∨ j = i * 2 + 1 + 1 := by omega
  · rw [hl] at hy
    cases hy
    exact hxl
  · exact hxr y hy

theorem siftDown_spec (fuel : ℕ) (hl : Linked h) (hi : i < h.heap.length)
    (hfuel : h.heap.length ≤ fuel + i) (hdown : HeapOrder.DownTo rank h.heap i) :
    ∃ h', siftDown fuel h i = some h' ∧ Sifted h h' := by
  induction fuel generalizing h i with
  | zero => omega
  | succ fuel ih =>
    obtain ⟨x, hx⟩ := getElem?_some_of_lt hi
    rcases Nat.lt_or_ge (i * 2 + 1) h.heap.length with hleft | hleft
    · obtain ⟨c, hc, hcpos, hcparent, hleast⟩ := leastChild_spec hleft
      by_cases hless : less c x = true
      · obtain ⟨h1, hswap, hl1, hmoved, hperm, hswapped⟩ :=
          swapEntries_spec hl (show i ≠ h.leastChild i by omega) hx hc
        have hdown1 := hdown.swap hcpos hcparent hx hc ((less_iff c x).mp hless) hleast hswapped
        have hlen := hperm.length_eq
        have hcn := lt_of_getElem? hc
        obtain ⟨h2, hsift, hsifted⟩ := ih hl1 (by omega) (by omega) hdown1
        exact ⟨h2, by simp [siftDown, not_le.mpr hleft, hx, hc, hless, hswap, hsift],
          .of_moved hmoved hperm hsifted⟩
      · have hle := (not_less_iff c x).mp (by simpa using hless)
        exact ⟨h, by simp [siftDown, not_le.mpr hleft, hx, hc, hless], hl, .refl h, .rfl,
          hdown.ordered_of_le hx fun j y hj hji hy => hle.trans (hleast j y hj hji hy)⟩
    · refine ⟨h, by simp [siftDown, hleft], hl, .refl h, .rfl, hdown.ordered_of_le hx ?_⟩
      intro j y hj hji hy
      have := lt_of_getElem? hy
      omega

theorem repair_spec (hl : Linked h) (hi : i < h.heap.length)
    (haround : HeapOrder.Around rank h.heap i) : ∃ h', h.repair i = some h' ∧ Sifted h h' := by
  rcases Nat.eq_zero_or_pos i with rfl | hpos
  · obtain ⟨h', hsift, hsifted⟩ := siftDown_spec h.heap.length hl hi (by omega)
      (haround.downTo fun _ _ h0 => absurd h0 (lt_irrefl 0))
    exact ⟨h', by simp [repair, hsift], hsifted⟩
  obtain ⟨x, hx⟩ := getElem?_some_of_lt hi
  obtain ⟨y, hy⟩ := getElem?_some_of_lt (show (i - 1) / 2 < h.heap.length by omega)
  by_cases hless : less x y = true
  · obtain ⟨h', hsift, hsifted⟩ := siftUp_spec h.heap.length hl hi (by omega)
      (haround.upTo hx hy hpos ((less_iff x y).mp hless))
    exact ⟨h', by simp [repair, hpos.ne', hx, hy, hless, hsift], hsifted⟩
  have hle := (not_less_iff x y).mp (by simpa using hless)
  obtain ⟨h', hsift, hsifted⟩ := siftDown_spec h.heap.length hl hi (by omega)
    (haround.downTo fun u v _ hu hv => by
      rw [hx] at hu
      rw [hy] at hv
      cases hu
      cases hv
      exact hle)
  exact ⟨h', by simp [repair, hpos.ne', hx, hy, hless, hsift], hsifted⟩

end

end TxKernel.Time.MinHeap
