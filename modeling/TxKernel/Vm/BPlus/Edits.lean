import TxKernel.Vm.BPlus.Queries
import TxKernel.Vm.EntryPieces

/-!
Edits of one entry in a B+ index. All edit one leaf and rebuild the path above it, so one lemma says
what becomes of the whole.
-/

namespace TxKernel.Vm.BPlusNode

open TxKernel.Spans List

variable {ρ : Type} {h : ℕ} {n : BPlusNode} (hn : WellShaped h n) (hch : Chained n.values)
  {e : VmEntry}

lemma editLeafAt_append (key : ℕ) (edit : BPlusLeaf → Option (Edited × ρ)) (A : List BPlusNode)
    (c : BPlusNode) (B : List BPlusNode) :
    editLeafAt key edit (A ++ c :: B) A.length = editLeaf key edit c := by
  induction A with
  | nil => simp [editLeafAt]
  | cons a A ih => simpa [editLeafAt] using ih

include hn hch in
/-- **Editing a leaf**: the leaf a key leads to, the entries on both sides of it, and what the edit
of that leaf makes of the node. -/
lemma editLeaf_spec (key : ℕ) (edit : BPlusLeaf → Option (Edited × ρ)) :
    ∃ P l S, n.values = P ++ l.entries ++ S ∧ (∀ e ∈ P, e.range.stop ≤ key) ∧
      (∀ e ∈ S, key < e.range.start) ∧
      (∀ r, edit l = some (.same, r) → editLeaf key edit n = some (.same, r)) ∧
      ∀ ns r, edit l = some (.nodes ns, r) → AllShaped 1 ns →
        ∃ ms, editLeaf key edit n = some (.nodes ms, r) ∧ AllShaped h ms ∧
          valuesAll ms = P ++ valuesAll ns ++ S := by
  induction hn with
  | @leaf l ne =>
    refine ⟨[], l, [], by simp, by simp, by simp, ?_, ?_⟩
    · intro r hr
      simp [editLeaf, hr]
    · intro ns r hr hns
      exact ⟨ns, by simp [editLeaf, hr], hns, by simp⟩
  | @internal h cs ne fits hcs ih =>
    have hch' : Chained (valuesAll cs) := by simpa [mkInternal] using hch
    obtain ⟨A, c, B, rfl, hidx, hA, -, hB⟩ := route hcs ne hch' key
    have hpos := (hcs c (by simp)).height_pos
    obtain ⟨P, l, S, h1, h2, h3, h4, h5⟩ := ih c (by simp) (chained_around hch').2.1
    refine ⟨valuesAll A ++ P, l, S ++ valuesAll B, ?_, ?_, ?_, ?_, ?_⟩
    · simp [mkInternal, h1]
    · intro e he
      rcases mem_append.mp he with he | he
      · exact hA e he
      · exact h2 e he
    · intro e he
      rcases mem_append.mp he with he | he
      · exact h3 e he
      · exact hB e he
    · intro r hr
      simp only [mkInternal, editLeaf, hidx, editLeafAt_append, h4 r hr]
    intro ns r hr hns
    obtain ⟨ms, k1, k2, k3⟩ := h5 ns r hr hns
    obtain ⟨out, o1, o2, o3⟩ := internalNodesReplacingChildRange_spec hpos hcs k2
      A.length A.length le_rfl (by simp)
    refine ⟨out, ?_, o2, ?_⟩
    · simp [mkInternal, editLeaf, hidx, editLeafAt_append, k1, o1]
    have hdrop : (A ++ c :: B).drop (A.length + 1) = B := by rw [drop_append]; simp
    rw [o3, k3, hdrop]
    simp

/-! ### Insertion -/

lemma insertIdx_takeWhile (q : VmEntry → Bool) (l : List VmEntry) (e : VmEntry) :
    l.insertIdx (l.takeWhile q).length e = l.takeWhile q ++ e :: l.dropWhile q := by
  induction l with
  | nil => simp
  | cons a l ih => cases hq : q a <;> simp [hq, ih]

lemma splice_eq_insertIdx {es : List VmEntry} (h : Chained es)
    (he : ∀ a ∈ es, ¬ a.range.overlaps e.range) :
    es.insertIdx (es.takeWhile fun a => decide (a.range.start < e.range.start)).length e =
      splice es e.range.start e.range.stop [e] := by
  have htake : (es.takeWhile fun a => decide (a.range.start < e.range.start)) =
      leftOf es e.range.start := by
    rw [h.takeWhile_eq_filter]
    · refine filter_congr fun a ha => ?_
      have h1 := he a ha
      have h2 := a.range.start_lt_stop
      have h3 := e.range.start_lt_stop
      simp only [hi_eq, decide_eq_decide]
      omega
    · intro a b hab hb
      simp only [lo_eq, decide_eq_true_eq] at hab hb ⊢
      omega
  have hcut := h.cut e.range.start_lt_stop
  have hm : meeting es e.range.start e.range.stop = [] :=
    filter_eq_nil_iff.mpr fun a ha => by simpa using he a ha
  rw [hm, append_nil] at hcut
  have hdrop : (es.dropWhile fun a => decide (a.range.start < e.range.start)) =
      rightOf es e.range.stop := by
    have happ := takeWhile_append_dropWhile
      (p := fun a : VmEntry => decide (a.range.start < e.range.start)) (l := es)
    rw [htake] at happ
    exact append_cancel_left (happ.trans hcut)
  rw [insertIdx_takeWhile, htake, hdrop]
  simp [splice]

lemma splice_middle {P M S rs : List VmEntry} {s e : ℕ} (hse : s ≤ e)
    (hP : ∀ a ∈ P, a.range.stop ≤ s) (hS : ∀ a ∈ S, e ≤ a.range.start) :
    splice (P ++ M ++ S) s e rs = P ++ splice M s e rs ++ S := by
  obtain ⟨p1, -, p3⟩ := cut_of_left hse hP
  obtain ⟨s1, -, s3⟩ := cut_of_right hse hS
  simp [splice, p1, p3, s1, s3]

include hn hch in
lemma insertNode_spec (he : ∀ a ∈ n.values, ¬ a.range.overlaps e.range) :
    ∃ ns, n.insertNode e = some ns ∧ AllShaped h ns ∧
      valuesAll ns = splice n.values e.range.start e.range.stop [e] := by
  obtain ⟨P, l, S, h1, h2, h3, -, h5⟩ := editLeaf_spec hn hch e.range.start (insertInLeaf e)
  rw [h1, chained_append, chained_append] at hch
  obtain ⟨ns, k1, -, k3, k4⟩ :=
    leafNodesFromEntries_spec (l.entries.insertIdx (leafIndexForStart l e.range.start) e)
  obtain ⟨ms, m1, m2, m3⟩ := h5 ns () (by rw [insertInLeaf, k1]; rfl) k3
  refine ⟨ms, by rw [insertNode, m1]; rfl, m2, ?_⟩
  have hleaf := splice_eq_insertIdx hch.1.2.1 (e := e) fun a ha =>
    he a (by rw [h1]; simp [ha])
  have hS : ∀ a ∈ S, e.range.stop ≤ a.range.start := fun a ha => by
    have hov := he a (by rw [h1]; simp [ha])
    have := h3 a ha
    have := a.range.start_lt_stop
    omega
  rw [m3, k4, h1, splice_middle e.range.start_lt_stop.le h2 hS, ← hleaf]
  rfl

/-! ### Removal and rewrite of one entry -/

lemma mem_leaf_of_start {P M S : List VmEntry} (he : e ∈ P ++ M ++ S)
    (hP : ∀ a ∈ P, a.range.stop ≤ e.range.start) (hS : ∀ a ∈ S, e.range.start < a.range.start) :
    e ∈ M := by
  simp only [mem_append] at he
  rcases he with (hp | hm) | hs
  · have := hP e hp
    have := e.range.start_lt_stop
    omega
  · exact hm
  · exact absurd (hS e hs) (lt_irrefl _)

lemma splice_at_entry {X Y rs : List VmEntry} (h : Chained (X ++ e :: Y)) :
    splice (X ++ e :: Y) e.range.start e.range.stop rs = X ++ rs ++ Y := by
  rw [chained_append, chained_cons] at h
  obtain ⟨-, ⟨hY, -⟩, hX⟩ := h
  have hlt := e.range.start_lt_stop
  have e1 : X ++ e :: Y = X ++ [e] ++ Y := by simp
  rw [e1, splice_middle hlt.le (fun a ha => hX a ha e (by simp)) hY]
  simp [splice, leftOf, rightOf, hlt]

include hn hch in
/-- **Editing the leaf of an entry**: where the entry stands in its leaf, and what replacing it
there makes of the node. -/
lemma editEntry_spec (he : e ∈ n.values) (edit : BPlusLeaf → Option (Edited × ρ)) :
    ∃ X Y l, l.entries = X ++ e :: Y ∧ (∀ a ∈ X, a.range.start < e.range.start) ∧
      (∀ a ∈ Y, e.range.start < a.range.start) ∧
      (∀ r, edit l = some (.same, r) → editLeaf e.range.start edit n = some (.same, r)) ∧
      ∀ rs r, edit l = (leafNodesFromEntries (X ++ rs ++ Y)).map (fun ns => (.nodes ns, r)) →
        ∃ ns, editLeaf e.range.start edit n = some (.nodes ns, r) ∧ AllShaped h ns ∧
          valuesAll ns = splice n.values e.range.start e.range.stop rs := by
  obtain ⟨P, l, S, h1, h2, h3, h4, h5⟩ := editLeaf_spec hn hch e.range.start edit
  obtain ⟨X, Y, hl⟩ := append_of_mem (mem_leaf_of_start (h1 ▸ he) h2 h3)
  have hval : n.values = (P ++ X) ++ e :: (Y ++ S) := by rw [h1, hl]; simp
  rw [hval] at hch
  obtain ⟨hX, hY⟩ := hch.around
  refine ⟨X, Y, l, hl, fun a ha => hX a (by simp [ha]), fun a ha => hY a (by simp [ha]), h4, ?_⟩
  intro rs r hr
  obtain ⟨ns, k1, -, k3, k4⟩ := leafNodesFromEntries_spec (X ++ rs ++ Y)
  obtain ⟨ms, m1, m2, m3⟩ := h5 ns r (by rw [hr, k1]; rfl) k3
  refine ⟨ms, m1, m2, ?_⟩
  rw [m3, k4, hval, splice_at_entry hch]
  simp

include hn hch in
lemma removeNode_spec (he : e ∈ n.values) :
    ∃ ns, n.removeNode e.range.start = some (ns, some e) ∧ AllShaped h ns ∧
      valuesAll ns = splice n.values e.range.start e.range.stop [] := by
  obtain ⟨X, Y, l, hl, hX, -, -, hedit⟩ := editEntry_spec hn hch he (removeFromLeaf e.range.start)
  have hget : l.entries[X.length]? = some e := by rw [hl]; simp
  have herase : l.entries.eraseIdx X.length = X ++ Y := by
    rw [hl, eraseIdx_append_of_length_le (le_refl _)]; simp
  have hidx : leafIndexForStart l e.range.start = X.length := by
    rw [leafIndexForStart, hl, takeWhile_append_of_pos (by simpa using hX),
      takeWhile_cons_of_neg (by simp), append_nil]
  obtain ⟨ns, k1, k2⟩ := hedit [] (some e)
    (by simp [removeFromLeaf, hidx, hget, herase, Option.filter_some])
  exact ⟨ns, by rw [removeNode, k1]; rfl, k2⟩

variable {existing : ℕ}

lemma replaceOneScan_absent {Z : List VmEntry} (hZ : ∀ a ∈ Z, a.range.start ≠ existing)
    (rewrite : Option VmEntryRewrite) (removed : RemovedRecipeSummary) (out : List VmEntry) :
    replaceOneScan existing Z rewrite removed out = (out ++ Z, removed) := by
  induction Z generalizing out with
  | nil => simp [replaceOneScan]
  | cons z Z ih => simp [replaceOneScan, hZ z (by simp), ih fun a ha => hZ a (by simp [ha])]

lemma replaceOneScan_append {X Y : List VmEntry} (hX : ∀ a ∈ X, a.range.start ≠ e.range.start)
    (hY : ∀ a ∈ Y, a.range.start ≠ e.range.start) (rewrite : VmEntryRewrite)
    (removed : RemovedRecipeSummary) (out : List VmEntry) :
    replaceOneScan e.range.start (X ++ e :: Y) (some rewrite) removed out =
      (out ++ X ++ rewrite.intoEntries ++ Y, removed.observe e) := by
  induction X generalizing out with
  | nil => simp [replaceOneScan, replaceOneScan_absent hY]
  | cons x X ih =>
    simp [replaceOneScan, hX x (by simp), ih fun a ha => hX a (by simp [ha])]

include hn hch in
lemma replaceOneEntryNode_spec (he : e ∈ n.values) (rewrite : VmEntryRewrite) :
    ∃ ns, n.replaceOneEntryNode e.range.start rewrite =
        some (.nodes ns, ⟨1, e.range.len⟩) ∧ AllShaped h ns ∧
      valuesAll ns = splice n.values e.range.start e.range.stop rewrite.intoEntries := by
  obtain ⟨X, Y, l, hl, hX, hY, -, hedit⟩ := editEntry_spec hn hch he
    (replaceOneInLeaf e.range.start rewrite)
  refine hedit rewrite.intoEntries _ ?_
  simp only [replaceOneInLeaf, hl, nil_append,
    replaceOneScan_append (fun a ha => (hX a ha).ne) (fun a ha => (hY a ha).ne')]
  simp [RemovedRecipeSummary.observe, RemovedRecipeSummary.default]

include hn hch in
lemma replaceOneEntryNode_absent (he : ∀ a ∈ n.values, a.range.start ≠ existing)
    (rewrite : VmEntryRewrite) :
    n.replaceOneEntryNode existing rewrite = some (.same, .default) := by
  obtain ⟨P, l, S, h1, -, -, h4, -⟩ := editLeaf_spec hn hch existing
    (replaceOneInLeaf existing rewrite)
  refine h4 .default ?_
  rw [replaceOneInLeaf, replaceOneScan_absent fun a ha => he a (by rw [h1]; simp [ha])]
  rfl

/-! ### Protecting part of one entry -/

section

variable {zone : ℕ → Bool} {w : VmEntryProtectRewrite}

lemma protectScan_absent {Z : List VmEntry} (hZ : ∀ a ∈ Z, a.range.start ≠ existing)
    (heap : PrivateHeap) (removed : RemovedRecipeSummary) (out : List VmEntry) :
    protectScan zone existing w heap Z removed out = .ok (heap, out ++ Z, removed) := by
  induction Z generalizing out with
  | nil => simp [protectScan]
  | cons z Z ih => simp [protectScan, hZ z (by simp), ih fun a ha => hZ a (by simp [ha])]

lemma protectScan_append {X Y : List VmEntry} {e : VmEntry}
    (hX : ∀ a ∈ X, a.range.start ≠ e.range.start)
    (hY : ∀ a ∈ Y, a.range.start ≠ e.range.start) (heap : PrivateHeap)
    (removed : RemovedRecipeSummary) (out : List VmEntry) :
    protectScan zone e.range.start w heap (X ++ e :: Y) removed out =
      match w.intoRewriteFor zone heap e with
      | .error err => .error (recipeTreeVmEntryError err)
      | .ok (heap', rewrite) =>
        .ok (heap', out ++ X ++ rewrite.intoEntries ++ Y, removed.observe e) := by
  induction X generalizing out with
  | nil =>
    rcases hr : w.intoRewriteFor zone heap e with err | ⟨heap', rewrite⟩
    · simp [protectScan, hr]
    · simp [protectScan, hr, protectScan_absent hY]
  | cons x X ih =>
    simp [protectScan, hX x (by simp), ih fun a ha => hX a (by simp [ha])]

variable (zone w) in
include hn hch in
lemma protectOneEntryNode_spec {e : VmEntry} (he : e ∈ n.values) (heap : PrivateHeap) :
    (∀ err, w.intoRewriteFor zone heap e = .error err →
      n.protectOneEntryNode zone heap e.range.start w =
        some (.same, .error (recipeTreeVmEntryError err))) ∧
    ∀ heap' rewrite, w.intoRewriteFor zone heap e = .ok (heap', rewrite) →
      ∃ ns, n.protectOneEntryNode zone heap e.range.start w =
          some (.nodes ns, .ok (heap', ⟨1, e.range.len⟩)) ∧ AllShaped h ns ∧
        valuesAll ns = splice n.values e.range.start e.range.stop rewrite.intoEntries := by
  obtain ⟨X, Y, l, hl, hX, hY, hsame, hedit⟩ := editEntry_spec hn hch he
    (protectOneInLeaf zone heap e.range.start w)
  have hscan := @protectScan_append zone w X Y e
    (fun a ha => (hX a ha).ne) (fun a ha => (hY a ha).ne') heap .default []
  constructor
  · intro err herr
    refine hsame _ ?_
    simp only [protectOneInLeaf, hl, hscan, herr]
  intro heap' rewrite hok
  refine hedit rewrite.intoEntries _ ?_
  simp only [protectOneInLeaf, hl, hscan, hok, nil_append]
  simp [RemovedRecipeSummary.observe, RemovedRecipeSummary.default]

include hn hch in
lemma protectOneEntryNode_absent (he : ∀ a ∈ n.values, a.range.start ≠ existing)
    (heap : PrivateHeap) :
    n.protectOneEntryNode zone heap existing w = some (.same, .ok (heap, .default)) := by
  obtain ⟨P, l, S, h1, -, -, h4, -⟩ := editLeaf_spec hn hch existing
    (protectOneInLeaf zone heap existing w)
  refine h4 _ ?_
  rw [protectOneInLeaf, protectScan_absent fun a ha => he a (by rw [h1]; simp [ha])]
  rfl

end

end TxKernel.Vm.BPlusNode
