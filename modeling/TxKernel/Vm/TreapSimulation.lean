import TxKernel.Vm.TreapRefinement

/-!
Runs of the treap recipe tree against the sorted list it stands for. An operation is allowed when
what it puts in fits.
-/

namespace TxKernel.Vm

open TxKernel.Spans TxKernel.Treap TxKernel.Runs List RemovedRecipeSummary

/-! ### Counts and sizes -/

@[simp] lemma vmSizeOf_nil : vmSizeOf [] = 0 := rfl

@[simp] lemma vmSizeOf_cons (e : VmEntry) (L : List VmEntry) :
    vmSizeOf (e :: L) = e.range.len + vmSizeOf L := rfl

@[simp] lemma vmSizeOf_append (L M : List VmEntry) :
    vmSizeOf (L ++ M) = vmSizeOf L + vmSizeOf M := by simp [vmSizeOf]

lemma foldl_observe (L : List VmEntry) (s : RemovedRecipeSummary) :
    L.foldl observe s = ⟨s.count + L.length, s.vmSize + vmSizeOf L⟩ := by
  induction L generalizing s with
  | nil => rfl
  | cons e L ih =>
    simp only [foldl_cons, ih, observe, length_cons, vmSizeOf_cons, mk.injEq]
    omega

lemma fromEntries_eq (L : List VmEntry) :
    RemovedRecipeSummary.fromEntries L = ⟨L.length, vmSizeOf L⟩ := by
  simp [RemovedRecipeSummary.fromEntries, foldl_observe, RemovedRecipeSummary.default]

variable {L : List VmEntry}

lemma splice_count (h : Chained L) (rs : List VmEntry) {s e : ℕ} (hse : s < e) :
    (splice L s e rs).length = L.length - (meeting L s e).length + rs.length ∧
      vmSizeOf (splice L s e rs) = vmSizeOf L - vmSizeOf (meeting L s e) + vmSizeOf rs := by
  have hlen := congrArg length (h.cut hse)
  have hsize := congrArg vmSizeOf (h.cut hse)
  simp only [length_append, vmSizeOf_append] at hlen hsize
  simp only [splice, length_append, vmSizeOf_append]
  omega

variable {e : VmEntry}

lemma split_at_start (h : Chained L) {key : ℕ}
    (hf : (L.find? fun a => a.range.start = key) = some e) :
    e.range.start = key ∧ ∃ A B, L = A ++ e :: B ∧
      (L.filter fun a => a.range.start ≠ key) = A ++ B := by
  have hkey : e.range.start = key := by simpa using find?_some hf
  obtain ⟨A, B, rfl⟩ := append_of_mem (mem_of_find?_eq_some hf)
  exact ⟨hkey, A, B, rfl, hkey ▸ h.filter_lo_ne⟩

/-! ### The tree with its counters -/

@[simp] lemma RecipeTreeWith.removedOne_inner {B : Type} (t : RecipeTreeWith B) (inner : B)
    (o : Option VmEntry) : (t.removedOne inner o).inner = inner := by cases o <;> rfl

/-- The counters of a tree over any backend are those of the list `L`. -/
structure RecipeTreeWith.Counts {B : Type} (t : RecipeTreeWith B) (L : List VmEntry) : Prop where
  len : t.len = L.length
  vmSize : t.vmSize = vmSizeOf L

namespace RecipeTreeWith.Counts

variable {B : Type} {t : RecipeTreeWith B} {L : List VmEntry}

section

variable (h : t.Counts L) (hL : Chained L)

include h hL

lemma inserted (he : ∀ a ∈ L, ¬ a.range.overlaps e.range)
    (inner : B) : (t.inserted inner e).Counts (splice L e.range.start e.range.stop [e]) := by
  have hc := splice_count hL [e] e.range.start_lt_stop
  have hm : meeting L e.range.start e.range.stop = [] :=
    filter_eq_nil_iff.mpr fun a ha => by simpa using he a ha
  rw [hm] at hc
  refine ⟨?_, ?_⟩
  · rw [hc.1]; simp [RecipeTreeWith.inserted, h.len]
  · rw [hc.2]; simp [RecipeTreeWith.inserted, h.vmSize]

lemma removedOne (key : ℕ) (inner : B) :
    (t.removedOne inner (L.find? fun e => e.range.start = key)).Counts
      (L.filter fun e => e.range.start ≠ key) := by
  rcases hf : (L.find? fun e => e.range.start = key) with _ | e
  · have hall : (L.filter fun e => e.range.start ≠ key) = L := by
      exact filter_eq_self.mpr (by simpa using hf)
    rw [hf, hall]
    exact ⟨h.len, h.vmSize⟩
  obtain ⟨-, A, B, rfl, hfilter⟩ := split_at_start hL hf
  have hlen := h.len
  have hsize := h.vmSize
  simp only [length_append, length_cons, vmSizeOf_append, vmSizeOf_cons] at hlen hsize
  rw [hf, hfilter]
  refine ⟨?_, ?_⟩ <;> simp only [RecipeTreeWith.removedOne]
  · rw [length_append]; omega
  · rw [vmSizeOf_append]; omega

lemma replaced {s e : ℕ} (hse : s < e) (rs : List VmEntry) (inner : B) :
    (t.replaced inner (.fromEntries (meeting L s e)) rs).Counts (splice L s e rs) := by
  have hc := splice_count hL rs hse
  rw [fromEntries_eq]
  exact ⟨by rw [hc.1, ← h.len]; rfl, by rw [hc.2, ← h.vmSize]; rfl⟩

end

end RecipeTreeWith.Counts

namespace RecipeTree

/-- The tree holds the chained list `L`, with its count and total size. -/
structure Holds (t : RecipeTree) (L : List VmEntry) : Prop where
  index : t.inner.IndexOf L
  counts : t.Counts L

variable {t : RecipeTree} {L : List VmEntry}

lemma holds_new : Holds new [] := ⟨TreapRecipeIndex.indexOf_new, rfl, rfl⟩

lemma Holds.chained (h : Holds t L) : Chained L := h.index.chained

lemma Holds.insertEntry (h : Holds t L) (he : ∀ a ∈ L, ¬ a.range.overlaps e.range) :
    Holds (t.insertEntry e) (splice L e.range.start e.range.stop [e]) :=
  ⟨h.index.insertEntry he, h.counts.inserted h.chained he _⟩

lemma Holds.removeExact (h : Holds t L) (key : ℕ) :
    Holds (t.removeExact key).1 (L.filter fun e => e.range.start ≠ key) ∧
      (t.removeExact key).2 = L.find? fun e => e.range.start = key := by
  have hsnd := h.index.removeExact_snd key
  have hcount := h.counts.removedOne h.chained key (t.inner.removeExact key).1
  rw [← hsnd] at hcount
  refine ⟨⟨?_, hcount⟩, hsnd⟩
  simpa [RecipeTree.removeExact] using h.index.removeExact key

lemma splice_same_range {a : VmEntry} (h : Chained L)
    (hf : (L.find? fun a => a.range.start = e.range.start) = some a) (hr : a.range = e.range) :
    (splice (L.filter fun a => a.range.start ≠ e.range.start) e.range.start e.range.stop [e] =
      L.map fun b => if b.range = e.range then e else b) ∧
      ∀ b ∈ L.filter fun a => a.range.start ≠ e.range.start, ¬ b.range.overlaps e.range := by
  obtain ⟨-, A, B, rfl, hfilter⟩ := split_at_start h hf
  rw [hfilter]
  rw [chained_append, chained_cons] at h
  obtain ⟨-, ⟨hB, -⟩, hA⟩ := h
  have hA' : ∀ b ∈ A, b.range.stop ≤ e.range.start := fun b hb => hr ▸ hA b hb a (by simp)
  have hB' : ∀ b ∈ B, e.range.stop ≤ b.range.start := fun b hb => hr ▸ hB b hb
  have hlt := e.range.start_lt_stop
  obtain ⟨h1, -, h2⟩ := cut_of_left hlt.le hA'
  obtain ⟨h3, -, h4⟩ := cut_of_right hlt.le hB'
  have hne : ∀ b ∈ A ++ B, ¬ b.range.overlaps e.range := by
    intro b hb hov
    rcases mem_append.mp hb with hb | hb
    · have := hA' b hb; omega
    · have := hB' b hb; omega
  have hid : ∀ b ∈ A ++ B, (if b.range = e.range then e else b) = id b := fun b hb =>
    if_neg fun hc : b.range = e.range => hne b hb (by rw [hc]; exact ⟨hlt, hlt⟩)
  refine ⟨?_, hne⟩
  rw [map_append, map_cons, if_pos hr, map_congr_left fun b hb => hid b (mem_append_left _ hb),
    map_congr_left fun b hb => hid b (mem_append_right _ hb)]
  simp [splice, h1, h2, h3, h4]

lemma Holds.replaceRange (h : Holds t L) {range : UserRange} {rs : List VmEntry}
    (hr : Replacing L range.start range.stop rs) :
    Holds (t.replaceRange range rs).1 (splice L range.start range.stop rs) ∧
      (t.replaceRange range rs).2 = meeting L range.start range.stop ∧
      (t.replaceRangeSummary range rs).1 = (t.replaceRange range rs).1 ∧
      (t.replaceRangeSummary range rs).2 =
        fromEntries (meeting L range.start range.stop) := by
  obtain ⟨h1, h2, h3, h4⟩ := h.index.replaceRange range rs hr
  have hcount := h.counts.replaced h.chained range.start_lt_stop rs
    (t.inner.replaceRange range rs).1
  rw [fromEntries_eq, ← h2] at hcount
  refine ⟨⟨h1, hcount⟩, h2, ?_, h4⟩
  simp only [RecipeTree.replaceRangeSummary, RecipeTree.replaceRange, h2, h3, h4, fromEntries_eq]

end RecipeTree

/-! ### The specification machine -/

inductive RecipeOp
  | insertEntry (e : VmEntry)
  | removeExact (key : ℕ)
  | replaceExact (e : VmEntry)
  | replaceRange (range : UserRange) (rs : List VmEntry)
  | replaceRangeSummary (range : UserRange) (rs : List VmEntry)

inductive RecipeOut
  | done
  | removed (e : Option VmEntry)
  | replaced (error : Option VmMapError)
  | removedAll (es : List VmEntry)
  | summary (s : RemovedRecipeSummary)
  deriving DecidableEq

def mergeByStart (L M : List VmEntry) : List VmEntry :=
  L.merge M fun a b => a.range.start ≤ b.range.start

namespace RecipeOp

/-- What the operation does to the list of entries, and what it answers. -/
def onList (L : List VmEntry) : RecipeOp → List VmEntry × RecipeOut
  | .insertEntry e => (mergeByStart L [e], .done)
  | .removeExact key =>
    (L.filter fun a => a.range.start ≠ key, .removed (L.find? fun a => a.range.start = key))
  | .replaceExact e =>
    match L.find? (fun a => a.range.start = e.range.start) with
    | none => (L, .replaced (some .missingMapping))
    | some a =>
      if a.range = e.range then
        (L.map fun b => if b.range = e.range then e else b, .replaced none)
      else (L, .replaced (some .invalidRange))
  | .replaceRange range rs =>
    (mergeByStart (L.filter fun a => ¬ a.range.overlaps range) rs,
      .removedAll (L.filter fun a => a.range.overlaps range))
  | .replaceRangeSummary range rs =>
    (mergeByStart (L.filter fun a => ¬ a.range.overlaps range) rs,
      .summary (.fromEntries (L.filter fun a => a.range.overlaps range)))

def Fits (L : List VmEntry) : RecipeOp → Prop
  | .insertEntry e => ∀ a ∈ L, ¬ a.range.overlaps e.range
  | .removeExact _ => True
  | .replaceExact _ => True
  | .replaceRange range rs => Replacing L range.start range.stop rs
  | .replaceRangeSummary range rs => Replacing L range.start range.stop rs

end RecipeOp

namespace RecipeTree

def step (t : RecipeTree) : RecipeOp → RecipeTree × RecipeOut
  | .insertEntry e => (t.insertEntry e, .done)
  | .removeExact key => ((t.removeExact key).1, .removed (t.removeExact key).2)
  | .replaceExact e =>
    match t.replaceExact e with
    | .ok t' => (t', .replaced none)
    | .error err => (t, .replaced (some err))
  | .replaceRange range rs => ((t.replaceRange range rs).1, .removedAll (t.replaceRange range rs).2)
  | .replaceRangeSummary range rs =>
    ((t.replaceRangeSummary range rs).1, .summary (t.replaceRangeSummary range rs).2)

variable {L : List VmEntry}

lemma mergeByStart_insert (h : Chained L) (he : ∀ a ∈ L, ¬ a.range.overlaps e.range) :
    mergeByStart L [e] = splice L e.range.start e.range.stop [e] := by
  have hall : (L.filter fun a => ¬ (Span.lo a < e.range.stop ∧ e.range.start < Span.hi a)) = L :=
    filter_eq_self.mpr fun a ha => by simpa [imp_iff_not_or] using he a ha
  have := h.merge_eq_splice e.range.start_lt_stop (.self L e)
  rw [hall] at this
  exact this

lemma mergeByStart_replace {rs : List VmEntry} (h : Chained L) {range : UserRange}
    (hr : Replacing L range.start range.stop rs) :
    mergeByStart (L.filter fun a => ¬ a.range.overlaps range) rs =
      splice L range.start range.stop rs :=
  h.merge_eq_splice range.start_lt_stop hr

lemma Holds.step {t : RecipeTree} (h : Holds t L) (op : RecipeOp) (hf : op.Fits L) :
    (t.step op).2 = (op.onList L).2 ∧ Holds (t.step op).1 (op.onList L).1 := by
  cases op with
  | insertEntry e =>
    refine ⟨rfl, ?_⟩
    rw [RecipeOp.onList, mergeByStart_insert h.chained hf]
    exact h.insertEntry hf
  | removeExact key =>
    obtain ⟨h1, h2⟩ := h.removeExact key
    exact ⟨congrArg RecipeOut.removed h2, h1⟩
  | replaceExact e =>
    obtain ⟨hrem, hsnd⟩ := h.removeExact e.range.start
    rcases hf : (L.find? fun a => a.range.start = e.range.start) with _ | a
    · simpa [RecipeTree.step, RecipeTree.replaceExact, RecipeOp.onList, hsnd, hf] using h
    by_cases hr : a.range = e.range
    · obtain ⟨h1, h2⟩ := splice_same_range h.chained hf hr
      have hins := hrem.insertEntry h2
      rw [h1] at hins
      simpa [RecipeTree.step, RecipeTree.replaceExact, RecipeOp.onList, hsnd, hf, hr] using hins
    · simpa [RecipeTree.step, RecipeTree.replaceExact, RecipeOp.onList, hsnd, hf, hr] using h
  | replaceRange range rs =>
    obtain ⟨h1, h2, -, -⟩ := h.replaceRange hf
    simp only [RecipeTree.step, RecipeOp.onList, mergeByStart_replace h.chained hf]
    exact ⟨congrArg RecipeOut.removedAll h2, h1⟩
  | replaceRangeSummary range rs =>
    obtain ⟨h1, -, h3, h4⟩ := h.replaceRange hf
    simp only [RecipeTree.step, RecipeOp.onList, mergeByStart_replace h.chained hf]
    exact ⟨congrArg RecipeOut.summary h4, h3 ▸ h1⟩

/-- **The treap simulates the list.** After any allowed run the answers are those of the list
machine, every query reads the list, and the two range replacements agree. -/
theorem treap_simulates_sorted_list (ops : List RecipeOp)
    (hops : Allowed RecipeOp.onList RecipeOp.Fits [] ops) :
    let t := (runSpec RecipeTree.step .new ops).1
    let L := (runSpec RecipeOp.onList [] ops).1
    (runSpec RecipeTree.step .new ops).2 = (runSpec RecipeOp.onList [] ops).2 ∧
    Chained L ∧ t.valuesVec = L ∧ t.len = L.length ∧ t.vmSize = vmSizeOf L ∧
    (∀ addr, t.lookup addr = L.find? fun e => e.range.containsAddr addr) ∧
    (∀ key, t.predecessorRef key = (L.filter fun e => e.range.start ≤ key).getLast?) ∧
    (∀ key, t.successorRef key = L.find? fun e => key ≤ e.range.start) ∧
    (∀ range, t.overlapping range = L.filter fun e => e.range.overlaps range) ∧
    (∀ (σ : Type) (range : UserRange) (visitor : σ → VmEntry → σ) (st : σ),
      t.forEachOverlapping range visitor st =
        (L.filter fun e => e.range.overlaps range).foldl visitor st) ∧
    ∀ (range : UserRange) (rs : List VmEntry), Replacing L range.start range.stop rs →
      (t.replaceRangeSummary range rs).1 = (t.replaceRange range rs).1 ∧
      (t.replaceRangeSummary range rs).2.count = (t.replaceRange range rs).2.length ∧
      (t.replaceRangeSummary range rs).2.vmSize = vmSizeOf (t.replaceRange range rs).2 := by
  obtain ⟨hout, hsim⟩ := simulate_total Holds (fun t L op h hf => h.step op hf) ops holds_new hops
  refine ⟨hout, hsim.chained, hsim.index.valuesVec_eq, hsim.counts.len, hsim.counts.vmSize,
    hsim.index.lookupRef_eq, hsim.index.predecessorRef_eq, hsim.index.successorRef_eq,
    hsim.index.overlapping_eq, fun σ => hsim.index.forEachOverlapping_eq, ?_⟩
  intro range rs hr
  obtain ⟨-, h2, h3, h4⟩ := hsim.replaceRange hr
  exact ⟨h3, by rw [h4, h2, fromEntries_eq], by rw [h4, h2, fromEntries_eq]⟩

def mapThenReplace : List RecipeOp :=
  [.insertEntry (.anon (.pages 1 4 (by decide))),
    .replaceRange (.pages 3 4 (by decide)) [.anon (.pages 3 2 (by decide))]]

theorem treap_simulates_map_then_replace :
    Allowed RecipeOp.onList RecipeOp.Fits [] mapThenReplace ∧
      (runSpec RecipeTree.step .new mapThenReplace).1.valuesVec =
        (runSpec RecipeOp.onList [] mapThenReplace).1 := by
  have hfit : Allowed RecipeOp.onList RecipeOp.Fits [] mapThenReplace := by
    refine ⟨by simp [RecipeOp.Fits], ⟨chained_singleton _, fun r hr x h1 h2 => Or.inl ?_⟩, trivial⟩
    rw [mem_singleton] at hr
    subst hr
    simp only [lo_eq, hi_eq, VmEntry.anon, VmEntry.new, UserRange.pages, userPageSize] at *
    omega
  exact ⟨hfit, (treap_simulates_sorted_list _ hfit).2.2.1⟩

end RecipeTree

end TxKernel.Vm
