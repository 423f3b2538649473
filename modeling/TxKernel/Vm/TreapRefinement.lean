import TxKernel.Library.Runs
import TxKernel.Vm.RecipeTree

/-!
The treap recipe tree refines the sorted list of its entries: every operation is described by what
it does to that list, and every query by what it reads off it.
-/

namespace TxKernel.Vm

open TxKernel.Spans TxKernel.Treap TxKernel.Runs List RemovedRecipeSummary Tree Span UserRange

def keyed (e : VmEntry) : ℕ × VmEntry := (e.range.start, e)

@[simp] lemma keyed_fst (e : VmEntry) : (keyed e).1 = e.range.start := rfl
@[simp] lemma keyed_snd (e : VmEntry) : (keyed e).2 = e := rfl

lemma filter_map_keyed (L : List VmEntry) (q : ℕ × VmEntry → Bool) :
    (L.map keyed).filter q = (L.filter fun e => q (keyed e)).map keyed := by
  rw [filter_map]; rfl

namespace TreapRecipeIndex

/-- The index holds the chained list `L`. -/
structure IndexOf (t : TreapRecipeIndex) (L : List VmEntry) : Prop where
  toList : t.root.toList = L.map keyed
  chained : Chained L

variable {t : TreapRecipeIndex} {L : List VmEntry} {σ : Type}

lemma IndexOf.ordered (h : IndexOf t L) : Tree.Ordered t.root.toList := by
  rw [h.toList]; exact pairwise_map.mpr h.chained.lo_lt

lemma indexOf_new : IndexOf new [] := ⟨rfl, chained_nil⟩

/-! ### Queries -/

lemma collectValues_eq (n : RecipeNode) (out : List VmEntry) :
    collectValues n out = out ++ n.toList.map Prod.snd := by
  induction n generalizing out with
  | nil => simp [collectValues]
  | node k p e l r s ihl ihr => simp [collectValues, ihl, ihr]

lemma summarizeTreapValues_eq (n : RecipeNode) (out : RemovedRecipeSummary) :
    summarizeTreapValues n out =
      (n.toList.map Prod.snd).foldl observe out := by
  induction n generalizing out with
  | nil => rfl
  | node k p e l r s ihl ihr => simp [summarizeTreapValues, ihl, ihr]

lemma map_snd_keyed (L : List VmEntry) : (L.map keyed).map Prod.snd = L := by
  rw [map_map]
  exact map_id L

lemma IndexOf.valuesVec_eq (h : IndexOf t L) : t.valuesVec = L := by
  rw [valuesVec, collectValues_eq, h.toList, map_snd_keyed, nil_append]

lemma IndexOf.predecessorRef_eq (h : IndexOf t L) (key : ℕ) :
    t.predecessorRef key = lastUpTo L key := by
  rw [predecessorRef, floor_eq _ _ h.ordered, h.toList, filter_map_keyed,
    getLast?_map, Option.map_map, Option.or_none]
  exact Option.map_id'

lemma IndexOf.successorRef_eq (h : IndexOf t L) (key : ℕ) :
    t.successorRef key = firstFrom L key := by
  rw [successorRef, ceiling_eq _ _ h.ordered, h.toList, find?_map, Option.map_map, Option.or_none]
  exact Option.map_id'

lemma IndexOf.lookupRef_eq (h : IndexOf t L) (addr : ℕ) : t.lookupRef addr = covering L addr := by
  rw [h.chained.covering_eq_lastUpTo, ← h.predecessorRef_eq]
  rfl

lemma visitStartingIn_eq (range : UserRange) (visitor : σ → VmEntry → σ) (n : RecipeNode)
    (hn : Tree.Ordered n.toList) (st : σ) :
    visitStartingIn range visitor n st =
      ((n.toList.filter fun a => startsIn range a.1 a.2).map Prod.snd).foldl visitor st := by
  induction n generalizing st with
  | nil => rfl
  | node k p e l r s ihl ihr =>
    obtain ⟨hl, hr, hlk, hkr⟩ := hn.root
    have skipL : ¬ range.start ≤ k → l.toList.filter (fun a => startsIn range a.1 a.2) = [] :=
      fun hk => filter_eq_nil_iff.mpr fun a ha => by
        have := hlk a ha
        simp only [startsIn, decide_eq_true_eq, not_and]
        omega
    have skipR : ¬ k < range.stop → r.toList.filter (fun a => startsIn range a.1 a.2) = [] :=
      fun hk => filter_eq_nil_iff.mpr fun a ha => by
        have := hkr a ha
        simp only [startsIn, decide_eq_true_eq, not_and]
        omega
    simp only [visitStartingIn, ihl hl, ihr hr, toList_node, filter_append,
      filter_cons, map_append, foldl_append]
    -- each side is either walked or has nothing to visit
    by_cases h1 : range.start ≤ k
    · by_cases h2 : k < range.stop
      · by_cases h3 : startsIn range k e <;> simp [h1, h2, h3]
      have h3 : startsIn range k e = false := by simp [startsIn, h2]
      simp [h1, h2, h3, skipR h2]
    · have h2 : k < range.stop := by have := range.start_lt_stop; omega
      have h3 : startsIn range k e = false := by simp [startsIn, h1]
      simp [h1, h2, h3, skipL h1]

section

variable (h : IndexOf t L) (range : UserRange)

include h

lemma IndexOf.visitStartingIn_eq (visitor : σ → VmEntry → σ) (st : σ) :
    visitStartingIn range visitor t.root st =
      (L.filter fun e => range.start ≤ lo e ∧ lo e < range.stop).foldl
        visitor st := by
  rw [TreapRecipeIndex.visitStartingIn_eq _ _ _ h.ordered, h.toList, filter_map_keyed,
    map_snd_keyed]
  congr 1
  refine filter_congr fun e _ => ?_
  have := e.range.start_lt_stop
  rw [startsIn, decide_eq_decide]
  simp only [keyed_fst, keyed_snd, overlaps, lo_eq]
  omega

lemma IndexOf.boundary_eq :
    (t.predecessorRef range.start).filter (reachesInto range) =
      (L.filter fun e => lo e < range.start).getLast?.filter
        fun e => range.start < hi e := by
  have hrange := range.start_lt_stop
  rw [h.predecessorRef_eq]
  conv_lhs => rw [h.chained.split_lo range.start, lastUpTo_append]
  rw [lastUpTo_eq_getLast (l := L.filter fun a => decide (lo a < range.start))
    (fun a ha => by have := (mem_filter.mp ha).2; simp at this ⊢; omega)]
  rcases hz : lastUpTo (L.filter fun a => decide (range.start ≤ lo a)) range.start with _ | z
  · rw [Option.none_or]
    -- both sides look at the same last entry
    rcases hl : (L.filter fun a => decide (lo a < range.start)).getLast? with _ | a
    · rfl
    have hlt := (mem_filter.mp (mem_of_getLast? hl)).2
    simp only [lo_eq, decide_eq_true_eq] at hlt
    have : reachesInto range a = decide (range.start < hi a) := by
      simp only [reachesInto, overlaps, decide_eq_decide, hi_eq]
      omega
    simp only [Option.filter_some, this]
  -- an entry starts exactly at the range, so none reaches into it from before
  have hzm := mem_of_getLast? hz
  simp only [mem_filter, lo_eq, decide_eq_true_eq] at hzm
  obtain ⟨⟨hzL, hz1⟩, hz2⟩ := hzm
  have hzr : reachesInto range z = false := by
    simp only [reachesInto, decide_eq_false_iff_not, not_and]
    omega
  rw [Option.some_or, Option.filter_some, hzr]
  rcases hl : (L.filter fun a => decide (lo a < range.start)).getLast? with _ | a
  · rfl
  have hmem := mem_filter.mp (mem_of_getLast? hl)
  have hlt := hmem.2
  simp only [decide_eq_true_eq, lo_eq] at hlt
  have hne : a ≠ z := by rintro rfl; omega
  have hstop : a.range.stop ≤ range.start := by
    have := z.range.start_lt_stop
    rcases h.chained.apart hmem.1 hzL hne with hap | hap <;> simp at hap <;> omega
  simp [Option.filter_some, Nat.not_lt.mpr hstop]

lemma IndexOf.forEachOverlapping_eq (visitor : σ → VmEntry → σ) (st : σ) :
    t.forEachOverlapping range visitor st =
      (meeting L range.start range.stop).foldl visitor st := by
  rw [h.chained.meeting_eq range.start_lt_stop, foldl_append, forEachOverlapping,
    h.visitStartingIn_eq, ← h.boundary_eq range]
  congr 1
  rcases t.predecessorRef range.start with _ | e
  · rfl
  · cases he : reachesInto range e <;> simp [he, Option.filter_some]

end

lemma foldl_push (l out : List VmEntry) :
    l.foldl (fun (out : List VmEntry) e => out ++ [e]) out = out ++ l := by
  induction l generalizing out with
  | nil => simp
  | cons e l ih => simp [ih]

lemma IndexOf.overlapping_eq (h : IndexOf t L) (range : UserRange) :
    t.overlapping range = meeting L range.start range.stop := by
  have hf := h.forEachOverlapping_eq range (fun out e => out ++ [e]) []
  rw [foldl_push, nil_append] at hf
  rw [← hf, overlapping, forEachOverlapping, collectStartingIn]
  rcases t.predecessorRef range.start with _ | e <;> simp

/-! ### Updates -/

section

variable (h : IndexOf t L) {e : VmEntry}
include h

lemma IndexOf.insertEntry (he : ∀ a ∈ L, ¬ a.range.overlaps e.range) :
    IndexOf (t.insertEntry e) (splice L e.range.start e.range.stop [e]) := by
  obtain ⟨h1, h2, h3⟩ := h.chained.splice_one he
  refine ⟨?_, h3⟩
  have hleft : (L.filter fun a => decide ((keyed a).1 ≤ e.range.start)) =
    leftOf L e.range.start := h1
  have hright : (L.filter fun a => decide (e.range.start < (keyed a).1)) =
    rightOf L e.range.stop := h2
  rw [TreapRecipeIndex.insertEntry, toList_insert _ _ _ _ _ h.ordered, h.toList,
    filter_map_keyed, filter_map_keyed, hleft, hright]
  simp [splice, keyed]

lemma IndexOf.insertEntry_last (he : ∀ a ∈ L, a.range.stop ≤ e.range.start) :
    IndexOf (t.insertEntry e) (L ++ [e]) := by
  have hfree : ∀ a ∈ L, ¬ a.range.overlaps e.range := fun a ha => by
    have := he a ha
    simp only [overlaps, not_and]; omega
  have := h.insertEntry hfree
  obtain ⟨hl, -, hr⟩ := cut_of_left (e := e.range.stop) e.range.start_lt_stop.le he
  rwa [splice, hl, hr, append_nil] at this

lemma IndexOf.insertAll (rs : List VmEntry) (hc : Chained (L ++ rs)) :
    IndexOf (rs.foldl TreapRecipeIndex.insertEntry t) (L ++ rs) := by
  induction rs generalizing t L with
  | nil => simpa using h
  | cons r rs ih =>
    have hr : ∀ a ∈ L, a.range.stop ≤ r.range.start := fun a ha =>
      (chained_append.mp hc).2.2 a ha r (by simp)
    have := ih (h.insertEntry_last hr) (by simpa using hc)
    simpa using this

lemma IndexOf.removeExact (key : ℕ) :
    IndexOf (t.removeExact key).1 (L.filter fun e => e.range.start ≠ key) := by
  refine ⟨?_, h.chained.filter _⟩
  rw [TreapRecipeIndex.removeExact, toList_remove _ _ _ h.ordered, h.toList, filter_map_keyed]
  rfl

lemma IndexOf.removeExact_snd (key : ℕ) :
    (t.removeExact key).2 = L.find? fun e => e.range.start = key := by
  rw [TreapRecipeIndex.removeExact, remove_snd]
  rcases hf : (L.find? fun e => decide (e.range.start = key)) with _ | e
  · rw [hf, find_eq_none _ _ h.ordered, h.toList]
    simpa using hf
  have h1 := find?_some hf
  have h2 := mem_of_find?_eq_some hf
  simp only [decide_eq_true_eq] at h1
  rw [hf, find_eq_some _ _ h.ordered, h.toList, mem_map]
  exact ⟨e, h2, by rw [← h1]; rfl⟩

lemma IndexOf.splitBefore (key : ℕ) :
    IndexOf ⟨(t.root.splitBefore recipeCache key).1⟩ (L.filter fun e => e.range.start < key) ∧
      IndexOf ⟨(t.root.splitBefore recipeCache key).2⟩
        (L.filter fun e => key ≤ e.range.start) := by
  obtain ⟨h1, h2⟩ := toList_splitBefore recipeCache key t.root h.ordered
  rw [h.toList, filter_map_keyed] at h1 h2
  exact ⟨⟨h1, h.chained.filter _⟩, ⟨h2, h.chained.filter _⟩⟩

lemma IndexOf.joinReplaced {rs R : List VmEntry} {after : RecipeNode} (ha : IndexOf ⟨after⟩ R)
    (hc : Chained (L ++ rs ++ R)) : IndexOf (t.joinReplaced rs after) (L ++ rs ++ R) := by
  have hrs : Chained rs := (chained_append.mp (chained_append.mp hc).1).2.1
  have hr := indexOf_new.insertAll rs (by simpa using hrs)
  refine ⟨?_, hc⟩
  simp [TreapRecipeIndex.joinReplaced, h.toList, hr.toList, ha.toList]

end

lemma IndexOf.cutLeft (h : IndexOf t L) (range : UserRange)
    (hl : ∀ a ∈ L, a.range.start < range.start) :
    match t.predecessorRef range.start with
    | some b =>
      if b.range.overlaps range then
        IndexOf (t.removeExact b.range.start).1 (leftOf L range.start) ∧
          (t.removeExact b.range.start).2 = some b ∧ meeting L range.start range.stop = [b]
      else IndexOf t (leftOf L range.start) ∧ meeting L range.start range.stop = []
    | none => IndexOf t (leftOf L range.start) ∧ meeting L range.start range.stop = [] := by
  have hse := range.start_lt_stop
  rw [h.predecessorRef_eq, lastUpTo_eq_getLast fun a ha => (hl a ha).le,
    h.chained.meeting_before hse hl, h.chained.leftOf_before hl]
  rcases eq_nil_or_concat L with rfl | ⟨init, z, rfl⟩
  · exact ⟨by simpa using h, rfl⟩
  rw [concat_eq_append] at h hl ⊢
  have hz : z.range.start < range.start := hl z (by simp)
  simp only [getLast?_concat, Option.some.injEq, exists_eq_left', hi_eq, dropLast_concat]
  by_cases hs : range.start < z.range.stop
  · have hov : z.range.overlaps range := ⟨by omega, hs⟩
    have hrem := h.removeExact z.range.start
    have hcut := h.chained.filter_lo_ne
    simp only [lo_eq, append_nil] at hcut
    rw [hcut] at hrem
    have hfind := h.removeExact_snd z.range.start
    rw [if_pos hov, if_pos hs]
    refine ⟨hrem, ?_, by simp [hs]⟩
    rw [hfind, find?_append, find?_eq_none.mpr, Option.none_or]
    · simp
    intro a ha
    simpa using (h.chained.around.1 a ha).ne
  · have hov : ¬ z.range.overlaps range := fun hc => hs hc.2
    rw [if_neg hov, if_neg hs]
    exact ⟨h, by simp [Nat.le_of_not_lt hs]⟩

/-- **Range replacement** splices the list, and the two variants agree. -/
theorem IndexOf.replaceRange (h : IndexOf t L) (range : UserRange) (rs : List VmEntry)
    (hr : Replacing L range.start range.stop rs) :
    IndexOf (t.replaceRange range rs).1 (splice L range.start range.stop rs) ∧
      (t.replaceRange range rs).2 = meeting L range.start range.stop ∧
      (t.replaceRangeSummary range rs).1 = (t.replaceRange range rs).1 ∧
      (t.replaceRangeSummary range rs).2 =
        fromEntries (meeting L range.start range.stop) := by
  have hse := range.start_lt_stop
  obtain ⟨hleft, hfrom⟩ := h.splitBefore range.start
  obtain ⟨hmid, hafter⟩ := hfrom.splitBefore range.stop
  set L1 := L.filter fun e => decide (e.range.start < range.start) with hL1
  have hL1lt : ∀ a ∈ L1, a.range.start < range.start := by simp [hL1]
  -- the two halves of the list, and what the window does to each
  have hsplit := h.chained.split_lo range.start
  have hl : leftOf L range.start = leftOf L1 range.start := by
    conv_lhs => rw [hsplit, leftOf_append]
    rw [(cut_of_right (l := L.filter fun a => decide (range.start ≤ lo a))
      (le_refl range.start) (by simp)).1, append_nil]
    rfl
  have hm : meeting L range.start range.stop = meeting L1 range.start range.stop ++
      (L.filter fun e => decide (range.start ≤ e.range.start)).filter
        fun e => decide (e.range.start < range.stop) := by
    conv_lhs => rw [hsplit, meeting_append]
    rw [meeting_from (l := L.filter fun a => decide (range.start ≤ lo a)) (by simp)]
    rfl
  have hright : rightOf L range.stop =
      (L.filter fun e => decide (range.start ≤ e.range.start)).filter
        fun e => decide (range.stop ≤ e.range.start) := by
    rw [filter_filter]
    refine filter_congr fun a _ => ?_
    rw [Bool.eq_iff_iff]
    simp only [lo_eq, decide_eq_true_eq, Bool.and_eq_true]
    omega
  have hcut := hleft.cutLeft range hL1lt
  have hchain := h.chained.splice hse.le hr
  rw [splice, hl, hright] at hchain ⊢
  rw [hm]
  unfold TreapRecipeIndex.replaceRange TreapRecipeIndex.replaceRangeSummary
  simp only [collectValues_eq, summarizeTreapValues_eq, hmid.toList, map_snd_keyed]
  rcases hp : predecessorRef ⟨(t.root.splitBefore recipeCache range.start).1⟩ range.start
    with _ | b
  · rw [hp] at hcut
    refine ⟨hcut.1.joinReplaced hafter hchain, ?_, rfl, ?_⟩ <;>
      simp [hcut.2, fromEntries]
  rw [hp] at hcut
  by_cases hov : b.range.overlaps range
  · simp only [if_pos hov] at hcut ⊢
    obtain ⟨hrem, hsnd, hmeet⟩ := hcut
    refine ⟨hrem.joinReplaced hafter hchain, ?_, trivial, ?_⟩ <;>
      simp [hsnd, hmeet, fromEntries]
  · simp only [if_neg hov] at hcut ⊢
    refine ⟨hcut.1.joinReplaced hafter hchain, ?_, trivial, ?_⟩ <;>
      simp [hcut.2, fromEntries]

end TreapRecipeIndex

end TxKernel.Vm
