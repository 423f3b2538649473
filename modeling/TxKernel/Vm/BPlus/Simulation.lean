import TxKernel.Vm.BPlus.Edits

/-!
Runs of the B+ recipe tree against the sorted list it stands for.
-/

namespace TxKernel.Vm

open TxKernel.Spans TxKernel.Runs List VmEntryProtectRewrite VmEntryRewrite RecipeTree

namespace BPlusRecipeIndex

open BPlusNode

/-- The index holds the chained list `L` in a well-shaped tree. -/
structure IndexOf (t : BPlusRecipeIndex) (L : List VmEntry) : Prop where
  shaped : RootShaped t.root
  values : rootValues t.root = L
  chained : Chained L

variable {t : BPlusRecipeIndex} {L : List VmEntry}

lemma indexOf_new : IndexOf new [] := ⟨by simp [RootShaped, new], rfl, chained_nil⟩

lemma IndexOf.cases (h : IndexOf t L) : (t = ⟨none⟩ ∧ L = []) ∨
    ∃ root k, t = ⟨some root⟩ ∧ WellShaped k root ∧ root.values = L := by
  obtain ⟨_ | root⟩ := t
  · exact .inl ⟨rfl, h.values.symm⟩
  obtain ⟨k, hk⟩ := h.shaped root rfl
  exact .inr ⟨root, k, rfl, hk, h.values⟩

/-! ### Queries -/

section

variable (h : IndexOf t L)
include h

lemma IndexOf.valuesVec_eq : t.valuesVec = L := by
  obtain ⟨rfl, rfl⟩ | ⟨root, k, rfl, -, rfl⟩ := h.cases
  · rfl
  · rfl

lemma IndexOf.lookupRef_eq (addr : ℕ) :
    t.lookupRef addr = L.find? fun e => e.range.containsAddr addr := by
  obtain ⟨rfl, rfl⟩ | ⟨root, k, rfl, hk, rfl⟩ := h.cases
  · rfl
  · exact BPlusNode.lookupRef_eq hk h.chained addr

lemma IndexOf.predecessorRef_eq (key : ℕ) :
    t.predecessorRef key = (L.filter fun e => e.range.start ≤ key).getLast? := by
  obtain ⟨rfl, rfl⟩ | ⟨root, k, rfl, hk, rfl⟩ := h.cases
  · rfl
  · exact predecessor_eq hk h.chained key

lemma IndexOf.successorRef_eq (key : ℕ) :
    t.successorRef key = L.find? fun e => key ≤ e.range.start := by
  obtain ⟨rfl, rfl⟩ | ⟨root, k, rfl, hk, rfl⟩ := h.cases
  · rfl
  · exact successor_eq hk h.chained key

lemma IndexOf.forEachOverlapping_eq {σ : Type} (range : UserRange) (visitor : σ → VmEntry → σ)
    (st : σ) :
    t.forEachOverlapping range visitor st =
      (L.filter fun e => e.range.overlaps range).foldl visitor st := by
  obtain ⟨rfl, rfl⟩ | ⟨root, k, rfl, hk, rfl⟩ := h.cases
  · rfl
  · exact visitOverlapping_eq hk h.chained range visitor st

lemma IndexOf.overlapping_eq (range : UserRange) :
    t.overlapping range = L.filter fun e => e.range.overlaps range := by
  have hvisit := h.forEachOverlapping_eq range (fun out e => out ++ [e]) []
  rw [TreapRecipeIndex.foldl_push, nil_append] at hvisit
  rw [← hvisit]
  obtain ⟨_ | root⟩ := t
  · rfl
  · rfl

end

/-! ### Edits -/

section

variable {k : ℕ} {root : BPlusNode} (hk : WellShaped k root) {ns : List BPlusNode}
  (hns : AllShaped k ns)
include hk hns

lemma indexOf_rebuilt (hch : Chained (valuesAll ns)) :
    ∃ r, buildRootFromLevel ns root.height = some r ∧ IndexOf ⟨r⟩ (valuesAll ns) := by
  obtain ⟨r, h1, h2, h3⟩ := buildRootFromLevel_spec hk.height_pos hns
  exact ⟨r, by rw [hk.height_eq, h1], h2, h3, hch⟩

lemma indexOf_spliced {range : UserRange} {rs : List VmEntry} (hch : Chained root.values)
    (hval : valuesAll ns = splice root.values range.start range.stop rs)
    (hr : Replacing root.values range.start range.stop rs) :
    ∃ r, buildRootFromLevel ns root.height = some r ∧
      IndexOf ⟨r⟩ (splice root.values range.start range.stop rs) :=
  hval ▸ indexOf_rebuilt hk hns (hval ▸ hch.splice range.start_lt_stop.le hr)

end

variable {e : VmEntry}

lemma IndexOf.insertEntry (h : IndexOf t L) (he : ∀ a ∈ L, ¬ a.range.overlaps e.range) :
    ∃ t', t.insertEntry e = some t' ∧ IndexOf t' (splice L e.range.start e.range.stop [e]) := by
  obtain ⟨rfl, rfl⟩ | ⟨root, k, rfl, hk, rfl⟩ := h.cases
  · obtain ⟨ns, h1, h2, h3, h4⟩ := leafNodesFromEntries_spec [e]
    have h2' : ns.length = 1 := by rw [h2]; simp [divCeil, bplusLeafCap]
    obtain ⟨n, rfl⟩ := length_eq_one_iff.mp h2'
    refine ⟨⟨some n⟩, by simp [BPlusRecipeIndex.insertEntry, h1], ?_, ?_,
      by simp [splice, leftOf, rightOf]⟩
    · rintro m hm
      cases hm
      exact ⟨1, h3 n (by simp)⟩
    · simpa [rootValues, splice, leftOf, rightOf] using h4
  · obtain ⟨ns, h1, h2, h3⟩ := insertNode_spec hk h.chained he
    obtain ⟨r, h4, h5⟩ := indexOf_spliced hk h2 h.chained h3 (.self _ e)
    exact ⟨⟨r⟩, by simp [BPlusRecipeIndex.insertEntry, h1, h4], h5⟩

lemma lastUpTo_start (h : Chained L) (he : e ∈ L) : lastUpTo L e.range.start = some e := by
  obtain ⟨X, Y, rfl⟩ := append_of_mem he
  have hY := h.around.2
  rw [lastUpTo_append, ← singleton_append, lastUpTo_append,
    lastUpTo_eq_none (l := Y) (by simpa using hY)]
  simp [lastUpTo]

lemma IndexOf.removeExact (h : IndexOf t L) (key : ℕ) :
    ∃ t', t.removeExact key = some (t', L.find? fun e => e.range.start = key) ∧
      IndexOf t' (L.filter fun e => e.range.start ≠ key) := by
  obtain ⟨rfl, rfl⟩ | ⟨root, k, rfl, hk, rfl⟩ := h.cases
  · exact ⟨_, rfl, indexOf_new⟩
  have hch := h.chained
  simp only [BPlusRecipeIndex.removeExact]
  rcases hf : (root.values.find? fun e => e.range.start = key) with _ | e
  · have hne : ∀ e ∈ root.values, e.range.start ≠ key := by simpa [find?_eq_none] using hf
    have hpred : (root.predecessor key).all fun e => e.range.start ≠ key := by
      rw [predecessor_eq hk hch, Option.all_eq_true]
      intro e he
      have := mem_of_getLast? he
      simpa using hne e (mem_filter.mp this).1
    have hall : (root.values.filter fun e => e.range.start ≠ key) = root.values :=
      filter_eq_self.mpr (by simpa using hne)
    rw [if_pos hpred, hall]
    exact ⟨_, by rw [hf], h⟩
  · obtain ⟨rfl, A, B, hL, hfilter⟩ := split_at_start hch hf
    have he : e ∈ root.values := mem_of_find?_eq_some hf
    have hpred : ¬ (root.predecessor e.range.start).all fun a => a.range.start ≠ e.range.start := by
      rw [predecessor_eq hk hch, lastUpTo_start hch he]
      simp
    obtain ⟨ns, h1, h2, h3⟩ := removeNode_spec hk hch he
    obtain ⟨r, h4, h5⟩ := indexOf_spliced hk h2 hch h3 (Replacing.nil _ _ _)
    rw [if_neg hpred]
    refine ⟨⟨r⟩, by simp [h1, h4, hf], ?_⟩
    rw [hfilter]
    rwa [hL, splice_at_entry (hL ▸ hch), append_nil] at h5

def rewriteAt (L : List VmEntry) (key : ℕ) (es : List VmEntry) : List VmEntry :=
  L.flatMap fun e => if e.range.start = key then es else [e]

lemma rewriteAt_absent {key : ℕ} (h : ∀ e ∈ L, e.range.start ≠ key) (es : List VmEntry) :
    rewriteAt L key es = L := by
  induction L with
  | nil => rfl
  | cons a L ih =>
    have := ih fun e he => h e (by simp [he])
    simp only [rewriteAt] at this
    simp [rewriteAt, h a (by simp), this]

lemma rewriteAt_eq_splice (h : Chained L) (he : e ∈ L) (es : List VmEntry) :
    rewriteAt L e.range.start es = splice L e.range.start e.range.stop es := by
  obtain ⟨X, Y, rfl⟩ := append_of_mem he
  obtain ⟨hX, hY⟩ := h.around
  have hx := rewriteAt_absent (L := X) (fun a ha => (hX a ha).ne) es
  have hy := rewriteAt_absent (L := Y) (fun a ha => (hY a ha).ne') es
  simp only [rewriteAt, lo_eq] at hx hy
  rw [splice_at_entry h]
  simp [rewriteAt, hx, hy]

lemma filter_start (h : Chained L) (he : e ∈ L) :
    (L.filter fun a => a.range.start = e.range.start) = [e] := by
  obtain ⟨X, Y, rfl⟩ := append_of_mem he
  obtain ⟨hX, hY⟩ := h.around
  have hx : (X.filter fun a => a.range.start = e.range.start) = [] :=
    filter_eq_nil_iff.mpr fun a ha => by simpa using (hX a ha).ne
  have hy : (Y.filter fun a => a.range.start = e.range.start) = [] :=
    filter_eq_nil_iff.mpr fun a ha => by simpa using (hY a ha).ne'
  rw [filter_append, filter_cons_of_pos (by simp), hx, hy, nil_append]

lemma IndexOf.replaceOneEntryWithRewrite (h : IndexOf t L) (existing : ℕ) {rewrite : VmEntryRewrite}
    (hfit : ∀ e ∈ L, e.range.start = existing → RewriteFits e rewrite.intoEntries) :
    ∃ t', t.replaceOneEntryWithRewrite existing rewrite =
        some (t', .fromEntries (L.filter fun e => e.range.start = existing)) ∧
      IndexOf t' (rewriteAt L existing rewrite.intoEntries) := by
  obtain ⟨rfl, rfl⟩ | ⟨root, k, rfl, hk, rfl⟩ := h.cases
  · exact ⟨_, rfl, indexOf_new⟩
  simp only [BPlusRecipeIndex.replaceOneEntryWithRewrite]
  by_cases he : ∃ e ∈ root.values, e.range.start = existing
  · obtain ⟨e, he, rfl⟩ := he
    obtain ⟨ns, h1, h2, h3⟩ := replaceOneEntryNode_spec hk h.chained he rewrite
    obtain ⟨r, h4, h5⟩ := indexOf_spliced hk h2 h.chained h3 ((hfit e he rfl).replacing _)
    rw [← rewriteAt_eq_splice h.chained he] at h5
    exact ⟨⟨r⟩, by simp [h1, h4, Edited.toNodes, filter_start h.chained he, fromEntries_eq], h5⟩
  · push Not at he
    have hnil : (root.values.filter fun e => e.range.start = existing) = [] :=
      filter_eq_nil_iff.mpr (by simpa using he)
    rw [replaceOneEntryNode_absent hk h.chained he, rewriteAt_absent he, hnil]
    exact ⟨_, rfl, h⟩

lemma IndexOf.replaceOneEntryWithProtect (h : IndexOf t L) (zone : ℕ → Bool) (heap : PrivateHeap)
    (he : e ∈ L) (w : VmEntryProtectRewrite) :
    match w.intoRewriteFor zone heap e with
    | .error err => t.replaceOneEntryWithProtect zone heap e.range.start w =
        some (.error (recipeTreeVmEntryError err))
    | .ok (heap', rewrite) => ∃ t', t.replaceOneEntryWithProtect zone heap e.range.start w =
          some (.ok (heap', t', ⟨1, e.range.len⟩)) ∧
        IndexOf t' (rewriteAt L e.range.start rewrite.intoEntries) := by
  obtain ⟨rfl, rfl⟩ | ⟨root, k, rfl, hk, rfl⟩ := h.cases
  · cases he
  obtain ⟨hbad, hgood⟩ := protectOneEntryNode_spec hk h.chained zone w he heap
  rcases hw : w.intoRewriteFor zone heap e with err | ⟨heap', rewrite⟩
  · simp only [BPlusRecipeIndex.replaceOneEntryWithProtect, hbad err hw]
  obtain ⟨ns, h1, h2, h3⟩ := hgood heap' rewrite hw
  have hcut := VmEntry.cutAt_of_splitRewrite hw
  obtain ⟨r, h4, h5⟩ := indexOf_spliced hk h2 h.chained h3 (hcut.fits.replacing _)
  rw [← rewriteAt_eq_splice h.chained he] at h5
  exact ⟨⟨r⟩, by simp [BPlusRecipeIndex.replaceOneEntryWithProtect, h1, h4, Edited.toNodes], h5⟩

lemma IndexOf.replaceOneEntryWithProtect_absent (h : IndexOf t L) (zone : ℕ → Bool)
    (heap : PrivateHeap) {existing : ℕ} (he : ∀ e ∈ L, e.range.start ≠ existing)
    (w : VmEntryProtectRewrite) :
    t.replaceOneEntryWithProtect zone heap existing w = some (.ok (heap, t, .default)) := by
  obtain ⟨rfl, rfl⟩ | ⟨root, k, rfl, hk, rfl⟩ := h.cases
  · rfl
  simp only [BPlusRecipeIndex.replaceOneEntryWithProtect,
    protectOneEntryNode_absent hk h.chained he]
  rfl

end BPlusRecipeIndex

/-! ### The tree with its counters -/

namespace BPlusTree

open BPlusRecipeIndex

/-- The tree holds the chained list `L`, with its count and total size. -/
structure Holds (t : BPlusTree) (L : List VmEntry) : Prop where
  index : t.inner.IndexOf L
  counts : t.Counts L

variable {t : BPlusTree} {L : List VmEntry} {rewrite : VmEntryRewrite}

lemma holds_new : Holds new [] := ⟨indexOf_new, rfl, rfl⟩

lemma Holds.chained (h : Holds t L) : Chained L := h.index.chained

lemma Holds.insertEntry (h : Holds t L) (he : ∀ a ∈ L, ¬ a.range.overlaps e.range) :
    ∃ t', t.insertEntry e = some t' ∧ Holds t' (splice L e.range.start e.range.stop [e]) := by
  obtain ⟨inner, h1, h2⟩ := h.index.insertEntry he
  exact ⟨_, by rw [BPlusTree.insertEntry, h1]; rfl, h2, h.counts.inserted h.chained he inner⟩

lemma Holds.removeExact (h : Holds t L) (key : ℕ) :
    ∃ t', t.removeExact key = some (t', L.find? fun e => e.range.start = key) ∧
      Holds t' (L.filter fun e => e.range.start ≠ key) := by
  obtain ⟨inner, h1, h2⟩ := h.index.removeExact key
  refine ⟨_, by rw [BPlusTree.removeExact, h1]; rfl, ?_, h.counts.removedOne h.chained key inner⟩
  simpa using h2

lemma meeting_entry (h : Chained L) (he : e ∈ L) : meeting L e.range.start e.range.stop = [e] := by
  obtain ⟨X, Y, rfl⟩ := append_of_mem he
  have hlt := e.range.start_lt_stop
  rw [chained_append, chained_cons] at h
  obtain ⟨-, ⟨hY, -⟩, hX⟩ := h
  rw [← singleton_append, meeting_append, meeting_append,
    (cut_of_left hlt.le fun a ha => hX a ha e (by simp)).2.1, (cut_of_right hlt.le hY).2.1]
  simp [meeting, hlt]

lemma Holds.rewritten (h : Holds t L) (he : e ∈ L) {inner : BPlusRecipeIndex}
    (hi : inner.IndexOf (rewriteAt L e.range.start rewrite.intoEntries)) :
    Holds ⟨inner, t.len - 1 + rewrite.intoEntries.length,
        t.vmSize - e.range.len + vmSizeOf rewrite.intoEntries⟩
      (rewriteAt L e.range.start rewrite.intoEntries) := by
  have hc := h.counts.replaced h.chained e.range.start_lt_stop rewrite.intoEntries inner
  rw [meeting_entry h.chained he, ← rewriteAt_eq_splice h.chained he] at hc
  exact ⟨hi, by simpa [RecipeTreeWith.replaced, fromEntries_eq] using hc⟩

lemma Holds.replaceEntryAtWithRewriteSummary (h : Holds t L) (existing : ℕ)
    (hfit : ∀ e ∈ L, e.range.start = existing → RewriteFits e rewrite.intoEntries) :
    ∃ t', t.replaceEntryAtWithRewriteSummary existing rewrite =
        some (t', .fromEntries (L.filter fun e => e.range.start = existing)) ∧
      Holds t' (rewriteAt L existing rewrite.intoEntries) := by
  unfold BPlusTree.replaceEntryAtWithRewriteSummary
  rw [h.index.lookupRef_eq]
  by_cases hsome : ∃ e ∈ L, e.range.start = existing
  · obtain ⟨e, he, rfl⟩ := hsome
    obtain ⟨inner, h1, h2⟩ := h.index.replaceOneEntryWithRewrite e.range.start hfit
    have hfind : (L.find? fun a => a.range.containsAddr e.range.start).isNone = false := by
      rw [Option.isNone_eq_false_iff, find?_isSome]
      exact ⟨e, he, by simp [e.range.start_lt_stop]⟩
    have hh := h.rewritten he h2
    rw [filter_start h.chained he, fromEntries_eq] at h1 ⊢
    simp only [hfind, Bool.false_eq_true, if_false, h1, Option.map_some, length_singleton,
      one_ne_zero]
    refine ⟨_, rfl, ?_⟩
    simpa [intoEntries, replacementCount, replacementVmSize, Nat.add_assoc] using hh
  · push Not at hsome
    obtain ⟨inner, h1, -⟩ := h.index.replaceOneEntryWithRewrite existing hfit
    rw [filter_eq_nil_iff.mpr (by simpa using hsome)] at h1 ⊢
    rw [rewriteAt_absent hsome]
    refine ⟨t, ?_, h⟩
    split_ifs
    · rfl
    · rw [h1]; rfl

end BPlusTree

/-! ### The specification machine -/

/-- The operations on one entry; a protection comes with the answers of the zone of private sets. -/
inductive EntryOp
  | insertEntry (e : VmEntry)
  | removeExact (key : ℕ)
  | replaceExact (e : VmEntry)
  | rewriteAt (existing : ℕ) (rewrite : VmEntryRewrite)
  | protectAt (zone : ℕ → Bool) (existing : ℕ) (w : VmEntryProtectRewrite)

namespace EntryOp

/-- What the operation does to the private sets and the list of entries, and what it answers. -/
def onList (s : PrivateHeap × List VmEntry) :
    EntryOp → (PrivateHeap × List VmEntry) × Except VmMapError RecipeOut
  | .insertEntry e => ((s.1, mergeByStart s.2 [e]), .ok .done)
  | .removeExact key =>
    ((s.1, s.2.filter fun a => a.range.start ≠ key),
      .ok (.removed (s.2.find? fun a => a.range.start = key)))
  | .replaceExact e =>
    match s.2.find? (fun a => a.range.start = e.range.start) with
    | none => (s, .error .missingMapping)
    | some a =>
      if a.range = e.range then
        ((s.1, s.2.map fun b => if b.range = e.range then e else b), .ok .done)
      else (s, .error .invalidRange)
  | .rewriteAt existing rewrite =>
    ((s.1, BPlusRecipeIndex.rewriteAt s.2 existing rewrite.intoEntries),
      .ok (.summary (.fromEntries (s.2.filter fun e => e.range.start = existing))))
  | .protectAt zone existing w =>
    match s.2.find? fun e => e.range.containsAddr existing with
    | none => (s, .ok (.summary .default))
    | some e =>
      if ¬ e.range.containsRange w.target then (s, .error .invalidRange)
      else if e.range.start ≠ existing then (s, .ok (.summary .default))
      else
        match e.splitForProtect zone s.1 w.target w.prot with
        | .error err => (s, .error (recipeTreeVmEntryError err))
        | .ok (heap, rewrite) =>
          ((heap, BPlusRecipeIndex.rewriteAt s.2 existing rewrite.intoEntries),
            .ok (.summary ⟨1, e.range.len⟩))

def Fits (s : PrivateHeap × List VmEntry) : EntryOp → Prop
  | .insertEntry e => ∀ a ∈ s.2, ¬ a.range.overlaps e.range
  | .rewriteAt existing rewrite =>
    ∀ e ∈ s.2, e.range.start = existing → RewriteFits e rewrite.intoEntries
  | _ => True

end EntryOp

namespace BPlusTree

open BPlusRecipeIndex

def step (s : PrivateHeap × BPlusTree) :
    EntryOp → Option ((PrivateHeap × BPlusTree) × Except VmMapError RecipeOut)
  | .insertEntry e => (s.2.insertEntry e).map fun t => ((s.1, t), .ok .done)
  | .removeExact key => (s.2.removeExact key).map fun r => ((s.1, r.1), .ok (.removed r.2))
  | .replaceExact e =>
    (s.2.replaceExact e).map fun
      | .ok t => ((s.1, t), .ok .done)
      | .error err => (s, .error err)
  | .rewriteAt existing rewrite =>
    (s.2.replaceEntryAtWithRewriteSummary existing rewrite).map fun r =>
      ((s.1, r.1), .ok (.summary r.2))
  | .protectAt zone existing w =>
    (replaceEntryAtWithProtectSummary zone s.1 s.2 existing w).map fun
      | .ok (heap, t, removed) => ((heap, t), .ok (.summary removed))
      | .error err => (s, .error err)

/-- The private sets agree and the tree holds the list. -/
def Tied (s : PrivateHeap × BPlusTree) (l : PrivateHeap × List VmEntry) : Prop :=
  s.1 = l.1 ∧ Holds s.2 l.2

section

variable {s : PrivateHeap × BPlusTree} {l : PrivateHeap × List VmEntry} (h : Tied s l)
include h

lemma Tied.protectAt (zone : ℕ → Bool) (existing : ℕ) (w : VmEntryProtectRewrite) :
    ∃ s', step s (.protectAt zone existing w) =
        some (s', ((EntryOp.protectAt zone existing w).onList l).2) ∧
      Tied s' ((EntryOp.protectAt zone existing w).onList l).1 := by
  obtain ⟨heap, t⟩ := s
  obtain ⟨heap', L⟩ := l
  obtain ⟨rfl, hh⟩ := h
  simp only [step, EntryOp.onList, replaceEntryAtWithProtectSummary, hh.index.lookupRef_eq]
  rcases hf : (L.find? fun e => e.range.containsAddr existing) with _ | e
  · simp only [hf]
    exact ⟨_, rfl, rfl, hh⟩
  simp only [hf]
  have he : e ∈ L := mem_of_find?_eq_some hf
  by_cases hin : e.range.containsRange w.target
  · simp only [replacementCountFor, replacementVmSizeFor, if_pos hin, if_neg (not_not_intro hin)]
    by_cases hst : e.range.start = existing
    · subst hst
      have hp := hh.index.replaceOneEntryWithProtect zone heap he w
      simp only [intoRewriteFor] at hp
      rcases hw : e.splitForProtect zone heap w.target w.prot with err | ⟨heap', rewrite⟩
      · simp only [hw] at hp
        simp only [hp, ne_eq, not_true_eq_false, if_false]
        exact ⟨_, rfl, rfl, hh⟩
      simp only [hw] at hp
      obtain ⟨inner, h1, h2⟩ := hp
      obtain ⟨c1, c2⟩ := (VmEntry.cutAt_of_splitRewrite hw).replacementCount
      have hr := hh.rewritten he h2
      rw [c1, c2] at hr
      simp only [h1, ne_eq, not_true_eq_false, if_false]
      exact ⟨_, rfl, rfl, hr⟩
    · have habs : ∀ a ∈ L, a.range.start ≠ existing := by
        rintro a ha rfl
        have hcov : e.range.containsAddr a.range.start := by simpa using find?_some hf
        rw [hh.chained.eq_of_cover he ha hcov ⟨le_rfl, a.range.start_lt_stop⟩] at hst
        exact hst rfl
      simp only [hh.index.replaceOneEntryWithProtect_absent zone heap habs w, ne_eq, hst,
        not_false_eq_true, if_true]
      exact ⟨_, rfl, rfl, hh⟩
  · simp only [replacementCountFor, if_neg hin, if_pos hin]
    exact ⟨_, rfl, rfl, hh⟩

lemma Tied.step (op : EntryOp) (hf : op.Fits l) :
    ∃ s', BPlusTree.step s op = some (s', (op.onList l).2) ∧ Tied s' (op.onList l).1 := by
  cases op with
  | protectAt zone existing w => exact h.protectAt zone existing w
  | insertEntry e =>
    obtain ⟨t', h1, h2⟩ := h.2.insertEntry hf
    refine ⟨(s.1, t'), by simp [BPlusTree.step, h1, EntryOp.onList], h.1, ?_⟩
    rw [EntryOp.onList, mergeByStart_insert h.2.chained hf]
    exact h2
  | removeExact key =>
    obtain ⟨t', h1, h2⟩ := h.2.removeExact key
    exact ⟨(s.1, t'), by simp [BPlusTree.step, h1, EntryOp.onList], h.1, h2⟩
  | rewriteAt existing rewrite =>
    obtain ⟨t', h1, h2⟩ := h.2.replaceEntryAtWithRewriteSummary existing hf
    exact ⟨(s.1, t'), by simp [BPlusTree.step, h1, EntryOp.onList], h.1, h2⟩
  | replaceExact e =>
    obtain ⟨t₁, hrem, h₁⟩ := h.2.removeExact e.range.start
    simp only [BPlusTree.step, BPlusTree.replaceExact, EntryOp.onList, hrem]
    rcases hf : (l.2.find? fun a => a.range.start = e.range.start) with _ | a
    · exact ⟨s, by simp [hf], by simpa [hf] using h⟩
    by_cases hr : a.range = e.range
    · obtain ⟨k1, k2⟩ := splice_same_range h.2.chained hf hr
      obtain ⟨t', hins, h2⟩ := h₁.insertEntry k2
      rw [k1] at h2
      exact ⟨(s.1, t'), by simp [hf, hr, hins], by simpa [hf, hr] using ⟨h.1, h2⟩⟩
    · exact ⟨s, by simp [hf, hr], by simpa [hf, hr] using h⟩

end

/-- **Single-entry runs.** Any allowed run goes through without a failed assertion, answers as the
list machine, and ends in a well-shaped tree that holds the list. -/
theorem single_entry_runs_keep_shape (heap : PrivateHeap) (ops : List EntryOp)
    (hops : Allowed EntryOp.onList EntryOp.Fits (heap, []) ops) :
    ∃ heap' t, run BPlusTree.step (heap, .new) ops =
        some ((heap', t), (runSpec EntryOp.onList (heap, []) ops).2) ∧
      let L := (runSpec EntryOp.onList (heap, []) ops).1.2
      Chained L ∧ t.inner.valuesVec = L ∧ t.len = L.length ∧ t.vmSize = vmSizeOf L ∧
      (∀ root, t.inner.root = some root → ∃ h, BPlusNode.WellShaped h root) ∧
      (∀ addr, t.inner.lookupRef addr = L.find? fun e => e.range.containsAddr addr) ∧
      (∀ key, t.inner.predecessorRef key = (L.filter fun e => e.range.start ≤ key).getLast?) ∧
      (∀ key, t.inner.successorRef key = L.find? fun e => key ≤ e.range.start) ∧
      ∀ range, t.inner.overlapping range = L.filter fun e => e.range.overlaps range := by
  obtain ⟨⟨heap', t⟩, hrun, -, hh⟩ := simulate Tied (fun s l op h hf => h.step op hf) ops
    (show Tied (heap, .new) (heap, []) from ⟨rfl, holds_new⟩) hops
  exact ⟨heap', t, hrun, hh.chained, hh.index.valuesVec_eq, hh.counts.len, hh.counts.vmSize,
    hh.index.shaped, hh.index.lookupRef_eq, hh.index.predecessorRef_eq, hh.index.successorRef_eq,
    hh.index.overlapping_eq⟩

lemma fourPages_fit : 0 < 4 ∧ (1 + 4) * userPageSize < 2 ^ 64 := by decide

lemma onePage_fits : 0 < 1 ∧ (2 + 1) * userPageSize < 2 ^ 64 := by decide

def mapThenProtect : List EntryOp :=
  [.insertEntry (.anon (.pages 1 4 fourPages_fit)),
    .protectAt (fun _ => true) 4096 ⟨.pages 2 1 onePage_fits, ⟨true, false, false⟩⟩,
    .removeExact 4096]

theorem single_entry_runs_map_then_protect :
    Allowed EntryOp.onList EntryOp.Fits (.empty, []) mapThenProtect ∧
      ∃ heap' t, run BPlusTree.step (.empty, .new) mapThenProtect =
          some ((heap', t), (runSpec EntryOp.onList (.empty, []) mapThenProtect).2) ∧
        t.inner.valuesVec = (runSpec EntryOp.onList (.empty, []) mapThenProtect).1.2 := by
  have hfit : Allowed EntryOp.onList EntryOp.Fits (.empty, []) mapThenProtect :=
    ⟨by simp [EntryOp.Fits], trivial, trivial, trivial⟩
  obtain ⟨heap', t, hrun, -, hval, -⟩ := single_entry_runs_keep_shape .empty _ hfit
  exact ⟨hfit, heap', t, hrun, hval⟩

end BPlusTree

end TxKernel.Vm
