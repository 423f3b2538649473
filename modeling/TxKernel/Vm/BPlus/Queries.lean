import TxKernel.Vm.BPlus.Index
import TxKernel.Vm.BPlus.Repair

/-!
Reads on a well-shaped B+ node answer as a scan of its entries would: the separators route.
-/

namespace TxKernel.Vm.BPlusNode

open TxKernel.Spans List Option AllShaped

/-! ### Routing -/

variable {n : BPlusNode} {h : ℕ}

lemma WellShaped.firstKey_eq (hn : WellShaped h n) :
    ∃ f, n.values.head? = some f ∧ n.firstKey = some f.range.start := by
  obtain ⟨f, fs, hf⟩ := exists_cons_of_ne_nil hn.values_ne_nil
  exact ⟨f, by rw [hf]; rfl, by rw [firstKey, hn.firstEntry_eq, hf]; rfl⟩

variable {cs : List BPlusNode} {A B : List BPlusNode} {c : BPlusNode} {es : List VmEntry} {σ : Type}

/-- **Routing**: the child a key leads to, and the entries on both sides of it. -/
lemma route (hcs : AllShaped h cs) (hne : cs ≠ []) (hch : Chained (valuesAll cs)) (key : ℕ) :
    ∃ A c B, cs = A ++ c :: B ∧ childIndexFor (separatorsFor cs) key = A.length ∧
      (∀ e ∈ valuesAll A, e.range.stop ≤ key) ∧
      (A ≠ [] → ∃ f, c.values.head? = some f ∧ f.range.start ≤ key) ∧
      ∀ e ∈ valuesAll B, key < e.range.start := by
  obtain ⟨c0, ds, rfl⟩ := exists_cons_of_ne_nil hne
  clear hne
  induction ds generalizing c0 with
  | nil => exact ⟨[], c0, [], rfl, rfl, by simp, by simp, by simp⟩
  | cons d ds ih =>
    obtain ⟨hc0, hds⟩ := allShaped_cons.mp hcs
    obtain ⟨f, hf, hk⟩ := (hds d (by simp)).firstKey_eq
    rw [valuesAll_cons, chained_append] at hch
    obtain ⟨-, hchd, hcross⟩ := hch
    have hfmem : f ∈ valuesAll (d :: ds) := by
      rw [valuesAll_cons]
      exact mem_append_left _ (mem_of_mem_head? hf)
    have hseps : separatorsFor (c0 :: d :: ds) = f.range.start :: separatorsFor (d :: ds) := by
      simp [separatorsFor, hk]
    by_cases hkey : f.range.start ≤ key
    · -- the next separator is not above the key: move on
      obtain ⟨A, c, B, h1, h2, h3, h4, h5⟩ := ih d hds hchd
      refine ⟨c0 :: A, c, B, by rw [h1]; rfl, ?_, ?_, fun _ => ?_, h5⟩
      · rw [hseps, childIndexFor, takeWhile_cons_of_pos (by simpa using hkey),
          length_cons, length_cons, ← h2]
        rfl
      · intro e he
        rcases mem_append.mp he with he | he
        · exact (hcross e he f hfmem).trans hkey
        · exact h3 e he
      · rcases A with _ | ⟨a, A⟩
        · obtain ⟨rfl, -⟩ := cons.inj h1
          exact ⟨f, hf, hkey⟩
        · exact h4 (by simp)
    · -- the next separator is above the key: stay
      refine ⟨[], c0, d :: ds, rfl, ?_, by simp, by simp, ?_⟩
      · rw [hseps, childIndexFor, takeWhile_cons_of_neg (by simpa using hkey)]
        rfl
      have hhead : (valuesAll (d :: ds)).head? = some f := by
        rw [valuesAll_cons, head?_append_of_ne_nil _ (hds d (by simp)).values_ne_nil, hf]
      intro e he
      have := hchd.le_lo_of_head hhead le_rfl e he
      simp only [lo_eq] at this
      omega

lemma findLeafAt_append (addr : ℕ) (A : List BPlusNode) (c : BPlusNode) (B : List BPlusNode) :
    findLeafAt addr (A ++ c :: B) A.length = findLeaf addr c := by
  induction A with
  | nil => simp [findLeafAt]
  | cons a A ih => simpa [findLeafAt] using ih

section

variable (key : ℕ) (A : List BPlusNode) (c : BPlusNode) (B : List BPlusNode)

lemma predecessorAt_append : predecessorAt key (A ++ c :: B) A.length = predecessor key c := by
  induction A with
  | nil => simp [predecessorAt]
  | cons a A ih => simpa [predecessorAt] using ih

lemma successorAt_append : successorAt key (A ++ c :: B) A.length = successor key c := by
  induction A with
  | nil => simp [successorAt]
  | cons a A ih => simpa [successorAt] using ih

end

lemma chained_around (h : Chained (valuesAll (A ++ c :: B))) :
    Chained (valuesAll A) ∧ Chained c.values ∧ Chained (valuesAll B) := by
  rw [valuesAll_append, valuesAll_cons, chained_append, chained_append] at h
  exact ⟨h.1, h.2.1.1, h.2.1.2.1⟩

lemma AllShaped.around (hn : AllShaped h (A ++ c :: B)) :
    AllShaped h A ∧ WellShaped h c ∧ AllShaped h B := by
  rw [allShaped_append, allShaped_cons] at hn
  exact hn

/-! ### Point queries -/

lemma lastStartingUpTo_eq (h : Chained es) (key : ℕ) :
    lastStartingUpTo es key = lastUpTo es key := by
  rw [lastStartingUpTo, lastUpTo, ← h.takeWhile_eq_filter]
  · rfl
  intro a b hab hb
  simp only [decide_eq_true_eq] at hb ⊢
  omega

lemma lookupRef_eq (hn : WellShaped h n) (hch : Chained n.values) (addr : ℕ) :
    n.lookupRef addr = covering n.values addr := by
  induction hn with
  | @leaf l ne =>
    rw [hch.covering_eq_lastUpTo, ← lastStartingUpTo_eq hch]
    simp [lookupRef, findLeaf]
  | @internal h cs ne fits hcs ih =>
    simp only [mkInternal, values_internal] at hch ⊢
    obtain ⟨A, c, B, rfl, hidx, hA, -, hB⟩ := route hcs ne hch addr
    have hc := ih c (by simp) (chained_around hch).2.1
    have hleaf : lookupRef (mkInternal (A ++ c :: B) (h + 1)) addr = lookupRef c addr := by
      simp only [lookupRef, mkInternal, findLeaf, hidx, findLeafAt_append]
    rw [mkInternal] at hleaf
    rw [hleaf, hc]
    have h1 : covering (valuesAll A) addr = none := covering_eq_none.mpr fun e he => by
      have := hA e he
      simp only [lo_eq, hi_eq]; omega
    have h2 : covering (valuesAll B) addr = none := covering_eq_none.mpr fun e he => by
      have := hB e he
      simp only [lo_eq, hi_eq]; omega
    unfold covering at *
    rw [valuesAll_append, valuesAll_cons, find?_append, find?_append, h1, h2]
    simp

lemma lastEntryBefore_append (hA : AllShaped h A) (B : List BPlusNode) :
    lastEntryBefore (A ++ B) A.length = (valuesAll A).getLast? := by
  rcases eq_nil_or_concat' A with rfl | ⟨A, a, rfl⟩
  · simp [lastEntryBefore]
  have ha := hA a (by simp)
  have hne := ha.values_ne_nil
  obtain ⟨z, hz⟩ := isSome_iff_exists.mp (getLast?_isSome.mpr hne)
  have hget : (A ++ [a] ++ B)[A.length]? = some a := by simp
  simp only [length_append, length_cons, length_nil, Nat.zero_add,
    lastEntryBefore, hget, bind_some, ha.lastEntry_eq, hz]
  rw [valuesAll_append, valuesAll_cons, valuesAll_nil, append_nil,
    getLast?_append_of_ne_nil _ hne, hz]

lemma predecessor_eq (hn : WellShaped h n) (hch : Chained n.values) (key : ℕ) :
    n.predecessor key = lastUpTo n.values key := by
  induction hn with
  | @leaf l ne =>
    rw [values_leaf] at hch ⊢
    simp [predecessor, lastStartingUpTo_eq hch]
  | @internal h cs ne fits hcs ih =>
    simp only [mkInternal, values_internal] at hch ⊢
    obtain ⟨A, c, B, rfl, hidx, hA, -, hB⟩ := route hcs ne hch key
    have hc := ih c (by simp) (chained_around hch).2.1
    rw [valuesAll_append, valuesAll_cons, lastUpTo_append, lastUpTo_append,
      lastUpTo_eq_none (l := valuesAll B) (fun e he => hB e he), none_or,
      lastUpTo_eq_getLast (l := valuesAll A) (fun e he => by
        have := hA e he
        have := e.range.start_lt_stop
        simp only [lo_eq]; omega),
      ← lastEntryBefore_append (around hcs).1 (c :: B), ← hc]
    simp only [predecessor, hidx, predecessorAt_append]
    rcases predecessor key c with _ | e <;> rfl

lemma firstEntryAmong_eq (hB : AllShaped h B) : firstEntryAmong B = (valuesAll B).head? := by
  rcases B with _ | ⟨b, B⟩
  · simp [firstEntryAmong]
  have hb := hB b (by simp)
  obtain ⟨f, fs, hf⟩ := exists_cons_of_ne_nil hb.values_ne_nil
  simp [firstEntryAmong, hb.firstEntry_eq, hf]

lemma successor_eq (hn : WellShaped h n) (hch : Chained n.values) (key : ℕ) :
    n.successor key = firstFrom n.values key := by
  induction hn with
  | leaf ne => simp [successor, firstFrom]
  | @internal h cs ne fits hcs ih =>
    simp only [mkInternal, values_internal] at hch ⊢
    obtain ⟨A, c, B, rfl, hidx, hA, -, hB⟩ := route hcs ne hch key
    have hc := ih c (by simp) (chained_around hch).2.1
    rw [valuesAll_append, valuesAll_cons, firstFrom_append, firstFrom_append,
      firstFrom_eq_none (l := valuesAll A) (fun e he => by
        have := hA e he
        have := e.range.start_lt_stop
        simp only [lo_eq]; omega),
      none_or, firstFrom_eq_head (l := valuesAll B) (fun e he => (hB e he).le),
      ← firstEntryAmong_eq (around hcs).2.2, ← hc]
    have hdrop : (A ++ c :: B).drop (A.length + 1) = B := by
      rw [drop_append]; simp
    simp only [successor, hidx, successorAt_append, hdrop]
    rcases successor key c with _ | e <;> rfl

/-! ### Range queries -/

section

variable (hn : WellShaped h n) (hch : Chained n.values) (range : UserRange)

include hn hch

lemma beforeRange_iff :
    n.beforeRange range = true ↔ ∀ e ∈ n.values, e.range.stop ≤ range.start := by
  rw [beforeRange, hn.lastEntry_eq]
  obtain ⟨z, hz⟩ := isSome_iff_exists.mp (getLast?_isSome.mpr hn.values_ne_nil)
  simp only [hz, any_some, decide_eq_true_eq]
  exact ⟨fun hs => hch.hi_le_of_getLast hz hs, fun hall => hall z (mem_of_getLast? hz)⟩

lemma afterRange_iff : n.afterRange range = true ↔ ∀ e ∈ n.values, range.stop ≤ e.range.start := by
  rw [afterRange, hn.firstEntry_eq]
  obtain ⟨f, hf⟩ := isSome_iff_exists.mp (isSome_head?.mpr hn.values_ne_nil)
  simp only [hf, any_some, decide_eq_true_eq]
  exact ⟨fun hs => hch.le_lo_of_head hf hs, fun hall => hall f (mem_of_mem_head? hf)⟩

end

section

variable (range : UserRange) (visitor : σ → VmEntry → σ)

lemma visitLeafOverlapping_eq (h : Chained es) (st : σ) :
    visitLeafOverlapping range visitor es st =
      (meeting es range.start range.stop).foldl visitor st := by
  induction es generalizing st with
  | nil => rfl
  | cons e es ih =>
    have hc := chained_cons.mp h
    rw [visitLeafOverlapping]
    by_cases h1 : e.range.stop ≤ range.start
    · rw [if_pos h1, ih hc.2, meeting, meeting, filter_cons_of_neg (by simp; omega)]
    by_cases h2 : range.stop ≤ e.range.start
    · -- every later entry starts even later
      have hall : ∀ a ∈ e :: es, range.stop ≤ Span.lo a :=
        h.le_lo_of_head (z := e) rfl (by simpa using h2)
      rw [if_neg h1, if_pos h2, (cut_of_right range.start_lt_stop.le hall).2.1]
      rfl
    · have hov : e.range.overlaps range := ⟨by omega, by omega⟩
      rw [if_neg h1, if_neg h2, if_pos hov, ih hc.2, meeting, meeting,
        filter_cons_of_pos (by simp; omega), foldl_cons]

lemma visitOverlappingAll_eq
    (h : ∀ c ∈ cs, ∀ st, visitOverlapping range visitor st c =
      (meeting c.values range.start range.stop).foldl visitor st)
    (st : σ) :
    visitOverlappingAll range visitor st cs =
      (meeting (valuesAll cs) range.start range.stop).foldl visitor st := by
  induction cs generalizing st with
  | nil => simp [visitOverlappingAll, meeting]
  | cons c cs ih =>
    rw [visitOverlappingAll, h c (by simp), ih fun d hd => h d (by simp [hd]), valuesAll_cons,
      meeting_append, foldl_append]

end

lemma meeting_of_not_mayOverlap (hn : WellShaped h n) (hch : Chained n.values) {range : UserRange}
    (hm : n.mayOverlap range = false) : meeting n.values range.start range.stop = [] := by
  have hse := range.start_lt_stop
  simp only [mayOverlap, Bool.and_eq_false_iff, Bool.not_eq_false'] at hm
  rcases hm with hm | hm
  · exact (cut_of_left hse.le ((beforeRange_iff hn hch range).mp hm)).2.1
  · exact (cut_of_right hse.le ((afterRange_iff hn hch range).mp hm)).2.1

lemma chained_child (h : Chained (valuesAll cs)) (hc : c ∈ cs) : Chained c.values := by
  obtain ⟨A, B, rfl⟩ := append_of_mem hc
  exact (chained_around h).2.1

lemma visitOverlapping_eq (hn : WellShaped h n) (hch : Chained n.values) (range : UserRange)
    (visitor : σ → VmEntry → σ) (st : σ) :
    visitOverlapping range visitor st n =
      (meeting n.values range.start range.stop).foldl visitor st := by
  induction hn generalizing st with
  | @leaf l ne =>
    rw [visitOverlapping]
    split_ifs with hm
    · exact visitLeafOverlapping_eq range visitor (by simpa using hch) st
    rw [meeting_of_not_mayOverlap (.leaf ne) hch (by simpa using hm)]
    rfl
  | @internal h cs ne fits hcs ih =>
    have hch' : Chained (valuesAll cs) := by simpa [mkInternal] using hch
    have hrec := visitOverlappingAll_eq range visitor
      (fun c hc => ih c hc (chained_child hch' hc)) st
    rw [mkInternal, visitOverlapping]
    split_ifs with hm
    · simpa using hrec
    have := meeting_of_not_mayOverlap (.internal ne fits hcs) hch
      (by simpa [mkInternal] using hm)
    simp only [mkInternal] at this
    rw [this]
    rfl

end TxKernel.Vm.BPlusNode
