import TxKernel.Time.Queue

/-!
What each operation of the queue does to the entries: removal, rearming and draining.
-/

namespace TxKernel.Time.MinHeap

open List HeapEntry LinearProbe
open LinearProbe (entries getElem?_set_lt lt_of_getElem? getElem?_some_of_lt)

section
variable {h : MinHeap}

section

variable (hs : Sound h)
include hs

lemma Sound.keys : (entries h.keySlots).map KeySlot.key ~ h.heap.map key := by
  simpa using SoundWith.keys hs

lemma Sound.count : (entries h.keySlots).length = h.heap.length := by
  simpa using hs.keys.length_eq

variable {key : TimerKey} {e : HeapEntry}

lemma slotIndex_of_absent (habs : ∀ e ∈ h.heap, e.key ≠ key) : h.slotIndex key = some none := by
  have hfind : find KeySlot.key hash h.keySlots key = some none := by
    refine find_of_absent (fun f hf hkey => ?_) hs.store.keySlots_room
    obtain ⟨e, he, hek⟩ := mem_map.mp (hs.keys.mem_iff.mp (mem_map_of_mem hf))
    exact habs e he (hek.trans hkey)
  simp [slotIndex, hfind]

lemma removeAt_sound {i : ℕ} (hi : h.heap[i]? = some e) :
    ∃ h', h.removeAt i = some (e, h') ∧ SoundWith h' [e.key] ∧ SameStorage h h' ∧
      h.heap ~ e :: h'.heap ∧ h'.slot e.key = some (some (slotOf e i)) := by
  obtain ⟨h', hremove, hl, ho, hmoved, hperm⟩ := removeAt_spec hs.linked hs.ordered hi
  have hkeys : (entries h'.keySlots).map KeySlot.key ~ [e.key] ++ h'.heap.map key := by
    rw [hmoved.keySlots]
    exact hs.keys.trans (hperm.map key)
  have hsound : SoundWith h' [e.key] := ⟨hl, ho, hs.store.of_moved hmoved hl, hkeys⟩
  refine ⟨h', hremove, hsound, hmoved.sameStorage, hperm, ?_⟩
  obtain ⟨s, hlead, hslot⟩ := hs.linked.entry hi
  have hlead' : h'.Leads e.key s := by rw [Leads, hmoved.keySlots]; exact hlead
  have hnodup := hsound.nodup_keys
  rw [singleton_append, nodup_cons] at hnodup
  rw [slot_of_leads hl.table hlead', hmoved.slots s fun f hf hc => ?_, hslot]
  -- another entry with that slot would have the same key
  obtain ⟨b, hb, _, hbk⟩ := (hs.store.live_iff _ _).mp hc
  rw [hslot] at hb
  cases hb
  exact hnodup.1 (mem_map.mpr ⟨f, hf, hbk.symm⟩)

theorem remove_spec (he : e ∈ h.heap) :
    ∃ h', h.remove e.key = some (true, h') ∧ Sound h' ∧ SameStorage h h' ∧
      h.heap ~ e :: h'.heap := by
  obtain ⟨i, hi⟩ := mem_iff_getElem?.mp he
  obtain ⟨s, hlead, hslot⟩ := hs.linked.entry hi
  obtain ⟨h1, hremove, hs1, hsame1, hperm, _⟩ := removeAt_sound hs hi
  obtain ⟨h2, hrecycle, hs2, hheap, hsame2⟩ := recycleSlot_spec hs1
  refine ⟨h2, ?_, hs2, hsame1.trans hsame2, by rw [hheap]; exact hperm⟩
  have hlookup := slot_of_leads hs.linked.table hlead
  rw [hslot] at hlookup
  have hindex : (slotOf e i).heapIndex = i := rfl
  have hlive : (slotOf e i).live = true := rfl
  simp [remove, hlookup, hindex, hlive, hremove, hrecycle]

/-- **Rearming** a live key changes its deadline and nothing else. -/
theorem rearm_spec (he : e ∈ h.heap) (deadlineNs : UInt64) :
    ∃ h' rest, h.rearm e.key deadlineNs = some (true, h') ∧ Sound h' ∧ SameStorage h h' ∧
      h.heap ~ e :: rest ∧ h'.heap ~ ⟨e.key, deadlineNs, e.generation + 1⟩ :: rest := by
  obtain ⟨i, hi⟩ := mem_iff_getElem?.mp he
  obtain ⟨s, hlead, hslot⟩ := hs.linked.entry hi
  have hin := lt_of_getElem? hi
  have hsn := lt_of_getElem? hslot
  let new : HeapEntry := ⟨e.key, deadlineNs, e.generation + 1⟩
  let h1 : MinHeap := { h with
    slots := h.slots.set s (slotOf new i)
    heap := h.heap.set i new }
  have hget : h.heap[i] = e := (List.getElem?_eq_some_iff.mp hi).2
  have hold : h.heap ~ e :: h.heap.eraseIdx i := by
    rw [← hget]
    exact (getElem_cons_eraseIdx_perm hin).symm
  have hnew : h1.heap ~ new :: h.heap.eraseIdx i := set_perm_cons_eraseIdx hin new
  have hkeys : h1.heap.map key ~ h.heap.map key :=
    (hnew.map key).trans (hold.map key).symm
  have hplace : ∀ k : ℕ, h1.heap[k]? = if k = i then some new else h.heap[k]? :=
    fun k => getElem?_set_lt hin new k
  have hslots : ∀ u : ℕ, h1.slots[u]? = if u = s then some (slotOf new i) else h.slots[u]? :=
    fun u => getElem?_set_lt hsn (slotOf new i) u
  have hl1 : Linked h1 := by
    refine ⟨hs.linked.table, hkeys.nodup_iff.mpr hs.linked.nodup, fun k f hk => ?_⟩
    rw [hplace] at hk
    split_ifs at hk with hki
    · cases hk
      exact ⟨s, hlead, by rw [hslots, if_pos rfl, hki]⟩
    obtain ⟨u, hu, huk⟩ := hs.linked.entry hk
    have hus : u ≠ s := by
      rintro rfl
      exact hki (place_of_slot huk hslot)
    exact ⟨u, hu, by rw [hslots, if_neg hus, huk]⟩
  have hmoved : Moved h h1 := by
    refine ⟨rfl, rfl, rfl, rfl, length_set, fun u hu => ?_⟩
    have hus : u ≠ s := by
      rintro rfl
      exact hu new (hnew.mem_iff.mpr mem_cons_self) hlead
    rw [hslots, if_neg hus]
  have haround : HeapOrder.Around rank h1.heap i := hs.ordered.around fun j x hj hx => by
    rw [hplace, if_neg hj] at hx
    exact hx
  obtain ⟨h2, hrepair, hsifted⟩ := repair_spec hl1
    (show i < h1.heap.length by show i < (h.heap.set i new).length; simpa using hin) haround
  have hmoved2 := hmoved.trans hsifted.moved fun _ hf => hsifted.perm.mem_iff.mpr hf
  refine ⟨h2, h.heap.eraseIdx i, ?_, ⟨hsifted.linked, hsifted.ordered,
    hs.store.of_moved hmoved2 hsifted.linked, ?_⟩, hmoved2.sameStorage, hold,
    hsifted.perm.trans hnew⟩
  · have hindex : (slotOf e i).heapIndex = i := rfl
    have hlive : (slotOf e i).live = true := rfl
    simp only [rearm, slotIndex_of_leads hs.linked.table hlead, hslot, Option.bind_some, hlive,
      if_true, hindex, hin]
    exact congrArg (Option.map _) hrepair
  · rw [hmoved2.keySlots]
    exact hs.keys.trans (hkeys.symm.trans (hsifted.perm.map key).symm)

end

lemma deadline_le_of_rank_le {e f : HeapEntry} (h : rank e ≤ rank f) :
    e.deadlineNs ≤ f.deadlineNs := by
  rw [UInt64.le_iff_toNat_le]
  rcases Prod.Lex.toLex_le_toLex.mp h with hlt | heq
  · exact hlt.le
  · exact heq.1.le

lemma key_eq_of_rank_eq {e f : HeapEntry} (h : rank e = rank f) : e.key = f.key := by
  have hraw : e.key.raw.toNat = f.key.raw.toNat := congrArg (fun r => (ofLex r).2) h
  exact congrArg TimerKey.mk (UInt64.toNat_inj.mp hraw)

/-- What a drain takes out: exactly what is due, in order. -/
structure Drained (nowNs : UInt64) (heap taken rest : List HeapEntry) : Prop where
  perm : heap ~ taken ++ rest
  due : ∀ e ∈ taken, e.deadlineNs ≤ nowNs
  later : ∀ e ∈ rest, nowNs < e.deadlineNs
  sorted : taken.Pairwise fun e f => rank e < rank f

/-- **Draining** takes out what is due and needs no more room than was counted. -/
theorem drainDue_spec (nowNs : UInt64) (n : ℕ) (hs : Sound h) (hn : h.heap.length = n) (out : Out)
    (hout : out.keys.length + h.dueCount nowNs ≤ out.cap) :
    ∃ h' taken, drainDue nowNs n h out =
        some (h', { out with keys := out.keys ++ taken.map key }) ∧
      Sound h' ∧ SameStorage h h' ∧ Drained nowNs h.heap taken h'.heap := by
  induction n generalizing h out with
  | zero =>
    have hnil := length_eq_zero_iff.mp hn
    refine ⟨h, [], by simp [drainDue, hnil], hs, .refl h, .rfl, by simp, by simp [hnil],
      List.Pairwise.nil⟩
  | succ n ih =>
    obtain ⟨e, he⟩ := getElem?_some_of_lt (show 0 < h.heap.length by omega)
    have hfirst : ∀ f ∈ h.heap, rank e ≤ rank f := by
      intro f hf
      obtain ⟨j, hj⟩ := mem_iff_getElem?.mp hf
      exact hs.ordered.first_le he j hj
    by_cases hlater : nowNs < e.deadlineNs
    · refine ⟨h, [], by simp [drainDue, he, hlater], hs, .refl h, .rfl, by simp, ?_,
        List.Pairwise.nil⟩
      exact fun f hf => UInt64.lt_of_lt_of_le hlater (deadline_le_of_rank_le (hfirst f hf))
    have hdue : e.deadlineNs ≤ nowNs := UInt64.not_lt.mp hlater
    obtain ⟨h1, hremove, hs1, hsame1, hperm, hslot⟩ := removeAt_sound hs he
    obtain ⟨h2, hrecycle, hs2, hheap, hsame2⟩ := recycleSlot_spec hs1
    have hcount : h.dueCount nowNs = h2.dueCount nowNs + 1 := by
      simp only [dueCount]
      rw [hperm.countP_eq, hheap, countP_cons, if_pos (by simpa using hdue)]
    have hlen : h2.heap.length = n := by
      have := hperm.length_eq
      rw [length_cons, ← hheap] at this
      omega
    have hpush : out.push e.key = some { out with keys := out.keys ++ [e.key] } := by
      rw [Out.push, if_pos (by omega)]
    obtain ⟨h3, taken, hdrain, hs3, hsame3, hdrained⟩ := ih hs2 hlen
      { out with keys := out.keys ++ [e.key] } (by simp; omega)
    refine ⟨h3, e :: taken, ?_, hs3, (hsame1.trans hsame2).trans hsame3, ?_, ?_, hdrained.later, ?_⟩
    · have hlive : (slotOf e 0).live = true := rfl
      have hgen : (slotOf e 0).generation = e.generation := rfl
      simp only [drainDue, he, hlater, if_false, hremove, Option.bind_some, hslot, hlive, hgen,
        and_self, if_true, hrecycle, hpush, hdrain, map_cons, append_assoc,
        singleton_append]
    · rw [hheap] at hdrained
      exact hperm.trans (hdrained.perm.cons e)
    · intro f hf
      rcases mem_cons.mp hf with rfl | hf
      · exact hdue
      · exact hdrained.due f hf
    refine pairwise_cons.mpr ⟨fun f hf => ?_, hdrained.sorted⟩
    have hf1 : f ∈ h1.heap := by
      rw [← hheap, hdrained.perm.mem_iff]
      exact mem_append_left _ hf
    refine lt_of_le_of_ne (hfirst f (hperm.mem_iff.mpr (mem_cons_of_mem _ hf1))) fun hc => ?_
    have hnodup := hs1.nodup_keys
    rw [singleton_append, nodup_cons] at hnodup
    exact hnodup.1 (key_eq_of_rank_eq hc ▸ mem_map_of_mem hf1)

end

end TxKernel.Time.MinHeap
