import TxKernel.Vm.Recipe
import TxKernel.Vm.EntryPieces
import TxKernel.Library.Pieces

/-!
What the loops of the recipe rewrites do to the list of entries: every entry that overlaps the range
is replaced by the pieces of one cut. A rewrite fails only where an entry is missing, a file offset
overflows or an allocation is refused.
-/

namespace TxKernel.Vm

open TxKernel.Spans List UserRange VmEntry Option VmEntryProtectRewrite VmEntryRewrite Span

/-! ### Intersections -/

namespace UserRange

variable {a b : UserRange}

lemma intersection_of_overlaps (h : a.overlaps b) :
    ∃ r, a.intersection b = some r ∧ r.start = max a.start b.start ∧
      r.stop = min a.stop b.stop := by
  have h1 := a.start_lt_stop
  have h2 := b.start_lt_stop
  have h3 := a.start_aligned
  have h4 := b.start_aligned
  have h5 := a.stop_aligned
  have h6 := b.stop_aligned
  have h7 := a.stop_lt
  have hlt : max a.start b.start < min a.stop b.stop := by
    omega
  obtain ⟨r, hr, hs, ht⟩ := newAligned_eq_ok (max a.start b.start)
    (min a.stop b.stop - max a.start b.start) (by omega)
    (by unfold userPageSize at *; omega)
    (by unfold userPageSize at *; omega) (by omega)
  refine ⟨r, ?_, hs, by omega⟩
  simp only [intersection, ge_iff_le, Nat.not_le.mpr hlt, if_false, hr]

lemma intersection_of_apart (h : ¬ a.overlaps b) : a.intersection b = none := by
  have hle : min a.stop b.stop ≤ max a.start b.start := by
    omega
  simp only [intersection, ge_iff_le, hle, if_true]

lemma intersection_eq_some {r : UserRange} (h : a.intersection b = some r) :
    a.overlaps b ∧ r.start = max a.start b.start ∧ r.stop = min a.stop b.stop := by
  by_cases hov : a.overlaps b
  · obtain ⟨r', hr, h1, h2⟩ := intersection_of_overlaps hov
    rw [hr, some.injEq] at h
    exact ⟨hov, h ▸ h1, h ▸ h2⟩
  · rw [intersection_of_apart hov] at h
    cases h

end UserRange

/-! ### Visits -/

lemma foldl_untilError {σ : Type} (visit : σ → VmEntry → Except VmMapError σ) (l : List VmEntry)
    (st : σ) : l.foldl (untilError visit) (.ok st) = l.foldlM visit st := by
  have herr : ∀ (l : List VmEntry) err, l.foldl (untilError visit) (.error err) = .error err := by
    intro l err
    induction l with
    | nil => rfl
    | cons e l ih => rw [foldl_cons]; exact ih
  induction l generalizing st with
  | nil => rfl
  | cons e l ih =>
    rw [foldl_cons, foldlM_cons]
    change l.foldl (untilError visit) (visit st e) = _
    rcases visit st e with err | st'
    · exact herr l err
    · exact ih st'

namespace RecipeTree

variable {t : RecipeTree} {L : List VmEntry} {stop : ℕ}

lemma Holds.visit {σ : Type} (h : Holds t L) (range : UserRange)
    (visit : σ → VmEntry → Except VmMapError σ) (st : σ) :
    t.forEachOverlapping range (untilError visit) (.ok st) =
      (meeting L range.start range.stop).foldlM visit st := by
  rw [forEachOverlapping, h.index.forEachOverlapping_eq, foldl_untilError]

lemma Holds.lookup_eq (h : Holds t L) (addr : ℕ) : t.lookup addr = covering L addr :=
  h.index.lookupRef_eq addr

/-! ### Coverage -/

lemma Coverage.visit_done {c : Coverage} (hc : c.contiguous = false ∨ stop ≤ c.cursor)
    (l : List VmEntry) :
    l.foldl (Coverage.visit stop) c = c := by
  induction l with
  | nil => rfl
  | cons e l ih =>
    have hv : Coverage.visit stop c e = c := by
      rcases hc with hc | hc <;> simp [Coverage.visit, hc]
    rw [foldl_cons, hv, ih]

lemma Coverage.scan_iff {l : List VmEntry} (hl : Chained l) {cursor : ℕ}
    (hlt : ∀ e ∈ l, cursor < e.range.stop) :
    (l.foldl (Coverage.visit stop) ⟨cursor, true⟩).complete stop = true ↔
    ∀ x, cursor ≤ x → x < stop → ∃ e ∈ l, e.range.containsAddr x := by
  rcases Nat.lt_or_ge cursor stop with hcs | hcs
  · induction l generalizing cursor with
    | nil =>
      have hno : Coverage.complete stop ⟨cursor, true⟩ = false := by
        simp [Coverage.complete, hcs]
      rw [foldl_nil, hno]
      exact ⟨fun h => Bool.noConfusion h, fun h => by simpa using h cursor le_rfl hcs⟩
    | cons e l ih =>
      rw [chained_cons] at hl
      rw [foldl_cons]
      have hes := hlt e (by simp)
      by_cases hstart : e.range.start > cursor
      · -- the byte at the cursor is covered by no entry
        have hv : Coverage.visit stop ⟨cursor, true⟩ e = ⟨cursor, false⟩ := by
          simp [Coverage.visit, hstart, Nat.not_le.mpr hcs]
        rw [hv, Coverage.visit_done (.inl rfl)]
        simp only [Coverage.complete, Bool.false_and, Bool.false_eq_true, false_iff]
        intro h
        obtain ⟨b, hb, hbx⟩ := h cursor le_rfl hcs
        rcases mem_cons.mp hb with rfl | hb
        · omega
        have h1 := hl.1 b hb
        simp only [hi_eq, lo_eq] at h1
        omega
      have hv : Coverage.visit stop ⟨cursor, true⟩ e = ⟨min e.range.stop stop, true⟩ := by
        have : max cursor (min e.range.stop stop) = min e.range.stop stop := by omega
        simp [Coverage.visit, hstart, Nat.not_le.mpr hcs, this]
      rw [hv]
      have hrest : (∀ x, cursor ≤ x → x < stop → ∃ b ∈ e :: l, b.range.containsAddr x) ↔
          ∀ x, min e.range.stop stop ≤ x → x < stop → ∃ b ∈ l, b.range.containsAddr x := by
        constructor
        · intro h x hx hxs
          obtain ⟨b, hb, hbx⟩ := h x (by omega) hxs
          rcases mem_cons.mp hb with rfl | hb
          · omega
          · exact ⟨b, hb, hbx⟩
        · intro h x hx hxs
          rcases Nat.lt_or_ge x e.range.stop with hxe | hxe
          · exact ⟨e, by simp, by omega⟩
          obtain ⟨b, hb, hbx⟩ := h x (by omega) hxs
          exact ⟨b, by simp [hb], hbx⟩
      rw [hrest]
      rcases Nat.lt_or_ge e.range.stop stop with hest | hest
      · rw [Nat.min_eq_left hest.le]
        refine ih hl.2 (fun b hb => ?_) hest
        have h1 := hl.1 b hb
        have h2 := b.range.start_lt_stop
        simp only [hi_eq, lo_eq] at h1
        omega
      · rw [Nat.min_eq_right hest, Coverage.visit_done (.inr (le_refl stop))]
        simp only [Coverage.complete, ge_iff_le, le_refl, decide_true, Bool.and_true, true_iff]
        intro x h1 h2
        omega
  · rw [Coverage.visit_done (.inr hcs)]
    simp only [Coverage.complete, ge_iff_le, hcs, decide_true, Bool.and_true, true_iff]
    intro x h1 h2
    omega

lemma Holds.rangeIsFullyMapped_iff (h : Holds t L) (range : UserRange) :
    t.rangeIsFullyMapped range = true ↔
      ∀ x, range.containsAddr x → (covering L x).isSome := by
  have hm : Chained (meeting L range.start range.stop) := h.chained.filter _
  rw [rangeIsFullyMapped, forEachOverlapping, h.index.forEachOverlapping_eq]
  refine (Coverage.scan_iff hm fun e he => (mem_meeting.mp he).2.2).trans ?_
  constructor
  · intro hall x hx
    obtain ⟨e, he, hex⟩ := hall x hx.1 hx.2
    exact isSome_iff_exists.mpr
      ⟨e, (covering_eq_some h.chained).mpr ⟨(mem_meeting.mp he).1, hex⟩⟩
  intro hall x h1 h2
  obtain ⟨e, he⟩ := isSome_iff_exists.mp (hall x ⟨h1, h2⟩)
  obtain ⟨hel, hex⟩ := (covering_eq_some h.chained).mp he
  simp only [lo_eq, hi_eq] at hex
  exact ⟨e, mem_meeting.mpr ⟨hel, by simp only [lo_eq, hi_eq]; omega⟩, hex⟩

lemma Holds.rangeHasProtection (h : Holds t L) (range : UserRange) (prot : Prot) :
    t.rangeHasProtection range prot =
      if t.rangeIsFullyMapped range then
        .ok (decide (∀ e ∈ meeting L range.start range.stop, e.prot = prot))
      else .error .missingMapping := by
  have hfold : ∀ (l : List VmEntry) (b : Bool),
      l.foldl (fun unchanged e => unchanged && decide (e.prot = prot)) b =
        (b && decide (∀ e ∈ l, e.prot = prot)) := by
    intro l
    induction l with
    | nil => simp
    | cons e l ih =>
      intro b
      rw [foldl_cons, ih]
      simp [Bool.and_assoc]
  rw [RecipeTree.rangeHasProtection, forEachOverlapping, h.index.forEachOverlapping_eq, hfold,
    Bool.true_and]

end RecipeTree

/-! ### Cuts -/

/-- Cutting `range` out of an entry that overlaps it, or giving that part protection `p`. -/
def Cuts (zone : ℕ → Bool) (range : UserRange) (p : Option Prot) (heap : PrivateHeap)
    (e : VmEntry) (heap' : PrivateHeap) (es : List VmEntry) : Prop :=
  ∃ overlap w, e.range.intersection range = some overlap ∧
    e.splitRewrite zone heap overlap p = .ok (heap', w) ∧ es = w.intoEntries

/-- The entry may be cut at address `a`: a piece that starts there has a file offset. -/
def VmEntry.FitsAt (e : VmEntry) (a : ℕ) : Prop :=
  e.range.start < a → a < e.range.stop → e.OffsetFits a

def VmEntry.CutsFit (e : VmEntry) (range : UserRange) (p : Option Prot) : Prop :=
  (p.isSome → e.FitsAt range.start) ∧ e.FitsAt range.stop

section

variable {zone : ℕ → Bool} {range overlap : UserRange} {p : Option Prot}
  {heap heap' : PrivateHeap} {e : VmEntry} {es : List VmEntry}

lemma Cuts.cutAt (h : Cuts zone range p heap e heap' es) :
    ∃ overlap w, overlap.start = max e.range.start range.start ∧
      overlap.stop = min e.range.stop range.stop ∧ CutAt e overlap p w ∧ es = w.intoEntries := by
  obtain ⟨overlap, w, hov, hw, rfl⟩ := h
  obtain ⟨-, h1, h2⟩ := intersection_eq_some hov
  exact ⟨overlap, w, h1, h2, cutAt_of_splitRewrite hw, rfl⟩

lemma Cuts.piecesOf (h : Cuts zone range p heap e heap' es) : PiecesOf e es := by
  obtain ⟨overlap, w, -, -, hcut, rfl⟩ := h.cutAt
  exact ⟨hcut.chained, hcut.ends⟩

lemma cutFits_iff (hov : e.range.intersection range = some overlap) :
    e.CutFits overlap p ↔ e.CutsFit range p := by
  obtain ⟨hmeet, h1, h2⟩ := intersection_eq_some hov
  have hs : e.OffsetFits overlap.start ↔ e.FitsAt range.start := by
    rcases Nat.lt_or_ge e.range.start range.start with hlt | hge
    · rw [h1, Nat.max_eq_right hlt.le]
      exact ⟨fun h _ _ => h, fun h => h hlt hmeet.2⟩
    · rw [h1, Nat.max_eq_left hge]
      exact ⟨fun _ hc => by omega, fun _ => e.offsetFits_start⟩
  have ht : (overlap.stop < e.range.stop → e.OffsetFits overlap.stop) ↔ e.FitsAt range.stop := by
    rcases Nat.lt_or_ge range.stop e.range.stop with hlt | hge
    · rw [h2, Nat.min_eq_right hlt.le]
      exact ⟨fun h _ _ => h hlt, fun h _ => h hmeet.1 hlt⟩
    · rw [h2, Nat.min_eq_left hge]
      exact ⟨fun _ _ hc => by omega, fun _ hc => absurd hc (lt_irrefl _)⟩
  rw [CutFits, CutsFit, hs, ht]

lemma Cuts.cutsFit (h : Cuts zone range p heap e heap' es) : e.CutsFit range p := by
  obtain ⟨overlap, w, hov, hw, -⟩ := h
  exact (cutFits_iff hov).mp (cutAt_of_splitRewrite hw).cutFits

lemma cut_error {err : VmEntryError} (hov : e.range.intersection range = some overlap)
    (h : e.splitRewrite zone heap overlap p = .error err) :
    (err = .backingOffsetOverflow ∧ ¬ e.CutsFit range p) ∨
      ∃ perr, err = .priv perr ∧ ZoneFull zone perr := by
  obtain ⟨hmeet, h1, h2⟩ := intersection_eq_some hov
  rcases splitRewrite_error h with ⟨-, hnot⟩ | ⟨rfl, hfit⟩ | hz
  · exact absurd (by simp only [containsRange]; omega) hnot
  · exact .inl ⟨rfl, fun hc => hfit ((cutFits_iff hov).mpr hc)⟩
  · exact .inr hz

/-- How the rewrite of a range whose pages are all there fails. -/
def CutFailure (zone : ℕ → Bool) (l : List VmEntry) (range : UserRange) (p : Option Prot)
    (err : VmMapError) : Prop :=
  (err = .backingOffsetOverflow ∧ ∃ e ∈ l, ¬ e.CutsFit range p) ∨
    ∃ perr, err = .priv perr ∧ ZoneFull zone perr

lemma cutFailure_of {err : VmEntryError} (he : e ∈ es)
    (hov : e.range.intersection range = some overlap)
    (h : e.splitRewrite zone heap overlap p = .error err) {report : VmEntryError → VmMapError}
    (h1 : report .backingOffsetOverflow = .backingOffsetOverflow)
    (h2 : ∀ perr, report (.priv perr) = .priv perr) :
    CutFailure zone es range p (report err) := by
  rcases cut_error hov h with ⟨rfl, hfit⟩ | ⟨perr, rfl, hz⟩
  · exact .inl ⟨h1, e, he, hfit⟩
  · exact .inr ⟨perr, h2 perr, hz⟩

end

namespace RecipeTree

variable {zone : ℕ → Bool} {heap heap' : PrivateHeap} {t : RecipeTree} {L rs : List VmEntry}
  {range : UserRange} {p : Option Prot} {r : RecipeRewrite} {err : VmMapError} {e q : VmEntry}
  {st st' : UnmapScan}

lemma pieces_of_threaded (h : Threaded (Cuts zone range p) heap L heap' rs) :
    Pieces (fun e es => PiecesOf e es ∧ ∃ heap heap', Cuts zone range p heap e heap' es) L rs :=
  h.pieces.imp fun _ _ _ ⟨h1, h2, hc⟩ => ⟨hc.piecesOf, h1, h2, hc⟩

lemma replacing_of_threaded (hL : Chained L)
    (h : Threaded (Cuts zone range p) heap (meeting L range.start range.stop) heap' rs) :
    Replacing L range.start range.stop rs :=
  (pieces_of_threaded h).replacing hL fun _ _ h => h.1

lemma cutsFit_of_threaded (h : Threaded (Cuts zone range p) heap L heap' rs) :
    ∀ e ∈ L, e.CutsFit range p := by
  induction h with
  | nil => simp
  | cons hc _ ih =>
    intro e he
    rcases mem_cons.mp he with rfl | he
    · exact hc.cutsFit
    · exact ih e he

lemma cutsFit_of_meeting (h : ∀ e ∈ meeting L range.start range.stop, e.CutsFit range p) :
    ∀ e ∈ L, e.CutsFit range p := by
  intro e he
  by_cases hm : e ∈ meeting L range.start range.stop
  · exact h e hm
  have hno : ¬ (e.range.start < range.stop ∧ range.start < e.range.stop) := fun hc =>
    hm (mem_meeting.mpr ⟨he, hc⟩)
  have := range.start_lt_stop
  exact ⟨fun _ h1 h2 => by omega, fun h1 h2 => by omega⟩

lemma Holds.replaceRangeSummary (h : Holds t L) (hr : Replacing L range.start range.stop rs) :
    Holds (t.replaceRangeSummary range rs).1 (splice L range.start range.stop rs) := by
  obtain ⟨h1, -, h2, -⟩ := h.replaceRange hr
  rw [h2]
  exact h1

lemma exists_intersection (he : e ∈ meeting L range.start range.stop) :
    ∃ overlap, e.range.intersection range = some overlap := by
  obtain ⟨overlap, h, -⟩ := intersection_of_overlaps (mem_meeting.mp he).2
  exact ⟨overlap, h⟩

lemma unmap_intoEntries {hole : UserRange} {w : VmEntryRewrite}
    (h : e.splitForUnmap zone heap hole = .ok (heap', w)) :
    w.before.toList ++ w.after.toList = w.intoEntries := by
  have ht : w.target = none := (cutAt_of_splitRewrite h).target
  simp [intoEntries, ht]

/-! ### Unmapping -/

lemma pushUnmapSurvivors_ok (he : e ∈ meeting L range.start range.stop)
    (h : pushUnmapSurvivors zone range st e = .ok st') :
    ∃ es, Cuts zone range none st.heap e st'.heap es ∧ st'.survivors = st.survivors ++ es := by
  obtain ⟨overlap, hov⟩ := exists_intersection he
  unfold pushUnmapSurvivors at h
  rw [hov] at h
  dsimp only at h
  split at h
  · cases h
  rename_i heap1 w hw
  cases h
  exact ⟨_, ⟨overlap, w, hov, hw, rfl⟩, by rw [← unmap_intoEntries hw]⟩

lemma pushUnmapSurvivors_count (h : pushUnmapSurvivors zone range st e = .ok st') :
    st'.removedEntries = st.removedEntries + 1 := by
  unfold pushUnmapSurvivors at h
  dsimp only at h
  split at h
  · cases h; rfl
  split at h
  · cases h
  · cases h; rfl

/-- **Unmapping a range** cuts it out of every entry that overlaps it. -/
lemma Holds.rewriteUnmap_ok (h : Holds t L) (hr : t.rewriteUnmap zone heap range = .ok r) :
    ∃ rs, Threaded (Cuts zone range none) heap (meeting L range.start range.stop) r.heap rs ∧
      Holds r.tree (splice L range.start range.stop rs) := by
  unfold rewriteUnmap at hr
  rw [h.visit] at hr
  obtain ⟨scan, hscan, hr⟩ := bind_ok hr
  obtain ⟨rs, hth, hrs⟩ := threaded_of_foldlM UnmapScan.heap UnmapScan.survivors
    (fun st e he st' hst => pushUnmapSurvivors_ok he hst) hscan
  have hcount := count_of_foldlM UnmapScan.removedEntries
    (fun st e st' hst => pushUnmapSurvivors_count hst) hscan
  simp only [Nat.zero_add] at hcount
  split_ifs at hr with hzero
  · -- no entry overlaps the range
    cases hr
    have hnil : meeting L range.start range.stop = [] :=
      eq_nil_of_length_eq_zero (by rw [← hcount]; exact hzero)
    have hcut := h.chained.cut range.start_lt_stop
    rw [hnil, append_nil] at hcut
    refine ⟨[], by rw [hnil]; exact .nil, ?_⟩
    rw [splice, append_nil, ← hcut]
    exact h
  · cases hr
    rw [hrs]
    exact ⟨rs, hth, h.replaceRangeSummary (replacing_of_threaded h.chained hth)⟩

lemma Holds.rewriteUnmap_error (h : Holds t L)
    (hr : t.rewriteUnmap zone heap range = .error err) : CutFailure zone L range none err := by
  unfold rewriteUnmap at hr
  rw [h.visit] at hr
  obtain hr | ⟨scan, -, hr⟩ := bind_error hr
  · obtain ⟨e, he, st, hst⟩ := error_of_foldlM hr
    obtain ⟨overlap, hov⟩ := exists_intersection he
    unfold pushUnmapSurvivors at hst
    rw [hov] at hst
    dsimp only at hst
    split at hst
    · rename_i err' herr
      cases hst
      exact cutFailure_of (mem_meeting.mp he).1 hov herr rfl fun _ => rfl
    · cases hst
  · split_ifs at hr

/-! ### Mapping over a range -/

lemma cutForFixed_ok {st st' : CutScan} (he : e ∈ meeting L range.start range.stop)
    (h : cutForFixed zone range st e = .ok st') :
    ∃ es, Cuts zone range none st.heap e st'.heap es ∧
      st'.replacements = st.replacements ++ es := by
  obtain ⟨overlap, hov⟩ := exists_intersection he
  unfold cutForFixed at h
  rw [hov] at h
  dsimp only at h
  split at h
  · cases h
  rename_i heap1 w hw
  cases h
  exact ⟨_, ⟨overlap, w, hov, hw, rfl⟩, by rw [← unmap_intoEntries hw]; rfl⟩

lemma meeting_of_threaded (h : Threaded (Cuts zone range none) heap L heap' rs) :
    meeting rs range.start range.stop = [] := by
  refine filter_eq_nil_iff.mpr fun b hb => ?_
  obtain ⟨e, -, es, ⟨-, h1, h2, hc⟩, hbe⟩ := (pieces_of_threaded h).exists_of_mem hb
  obtain ⟨overlap, w, hs, ht, hcut, rfl⟩ := hc.cutAt
  have htarget : w.target = none := hcut.target
  simp only [intoEntries, htarget, toList_none, append_nil, mem_append] at hbe
  simp only [lo_eq, hi_eq, decide_eq_true_eq, not_and]
  rcases hbe with hbe | hbe
  · obtain ⟨hlt, hp⟩ := hcut.before_toList b hbe
    have := hp.stop_eq
    omega
  · obtain ⟨hlt, hp⟩ := hcut.after_toList b hbe
    have := hp.start_eq
    omega

lemma free_of_threaded
    (h : Threaded (Cuts zone range none) heap (meeting L range.start range.stop) heap' rs) :
    ∀ a ∈ splice L range.start range.stop rs, ¬ a.range.overlaps range := by
  intro a ha hov
  rcases mem_splice.mp ha with ⟨-, h1⟩ | ha | ⟨-, h1⟩
  · simp only [hi_eq] at h1; omega
  · have : a ∈ meeting rs range.start range.stop := mem_meeting.mpr ⟨ha, hov⟩
    simp [meeting_of_threaded h] at this
  · simp only [lo_eq] at h1; omega

/-- **Mapping over a range** cuts it out of every entry that overlaps it and puts the new entry
there. -/
lemma Holds.rewriteFixed_ok (h : Holds t L) (hr : t.rewriteFixed zone heap q = .ok r) :
    ∃ rs, Threaded (Cuts zone q.range none) heap (meeting L q.range.start q.range.stop) r.heap rs ∧
      Holds r.tree
        (splice (splice L q.range.start q.range.stop rs) q.range.start q.range.stop [q]) := by
  unfold rewriteFixed at hr
  rw [h.visit] at hr
  obtain ⟨scan, hscan, hr⟩ := bind_ok hr
  cases hr
  obtain ⟨rs, hth, hrs⟩ := threaded_of_foldlM CutScan.heap CutScan.replacements
    (fun st e he st' hst => cutForFixed_ok he hst) hscan
  simp only [nil_append] at hrs
  have hrep := replacing_of_threaded h.chained hth
  have hfree := meeting_of_threaded hth
  have hsort : (rs ++ [q]).mergeSort (fun a b => a.range.start ≤ b.range.start) =
      splice rs q.range.start q.range.stop [q] := mergeSort_window hrep.chained hfree
  have hq : Replacing L q.range.start q.range.stop (splice rs q.range.start q.range.stop [q]) := by
    have hno : ∀ a ∈ rs, ¬ (lo a < hi q ∧ lo q < hi a) := fun a ha hm => by
      have : a ∈ meeting rs q.range.start q.range.stop := mem_meeting.mpr ⟨ha, hm⟩
      simp [hfree] at this
    refine ⟨(hrep.chained.splice_one hno).2.2, fun b hb => ?_⟩
    rcases mem_splice.mp hb with ⟨hb, -⟩ | hb | ⟨hb, -⟩
    · exact hrep.within b hb
    · rw [mem_singleton] at hb
      subst hb
      exact fun x h1 h2 => .inl ⟨h1, h2⟩
    · exact hrep.within b hb
  refine ⟨rs, hth, ?_⟩
  rw [← splice_splice q.range.start_lt_stop]
  simp only [hrs, hsort]
  exact h.replaceRangeSummary hq

lemma Holds.rewriteFixed_error (h : Holds t L) (hr : t.rewriteFixed zone heap q = .error err) :
    CutFailure zone L q.range none err := by
  unfold rewriteFixed at hr
  rw [h.visit] at hr
  obtain hr | ⟨scan, -, hr⟩ := bind_error hr
  · obtain ⟨e, he, st, hst⟩ := error_of_foldlM hr
    obtain ⟨overlap, hov⟩ := exists_intersection he
    unfold cutForFixed at hst
    rw [hov] at hst
    dsimp only at hst
    split at hst
    · rename_i err' herr
      cases hst
      exact cutFailure_of (mem_meeting.mp he).1 hov herr rfl fun _ => rfl
    · cases hst
  · cases hr

/-! ### Protecting -/

variable {prot : Prot}

lemma cutForProtect_ok {st st' : CutScan} (h : cutForProtect zone range prot st e = .ok st') :
    ∃ es, Cuts zone range (some prot) st.heap e st'.heap es ∧
      st'.replacements = st.replacements ++ es := by
  unfold cutForProtect at h
  split at h
  · cases h
  rename_i overlap hov
  split at h
  · cases h
  rename_i heap1 w hw
  cases h
  exact ⟨_, ⟨overlap, w, hov, hw, rfl⟩, rfl⟩

lemma inside_of_single (hmap : ∀ x, range.containsAddr x → (covering L x).isSome) (hL : Chained L)
    (hone : meeting L range.start range.stop = [e]) :
    e ∈ L ∧ e.range.start ≤ range.start ∧ range.stop ≤ e.range.stop ∧
      e.range.intersection range = some range := by
  have hlt := range.start_lt_stop
  -- whichever entry holds an address of the range is `e`
  have hin : ∀ x, range.containsAddr x → e.range.containsAddr x := by
    intro x hx
    obtain ⟨b, hb⟩ := isSome_iff_exists.mp (hmap x hx)
    obtain ⟨hbl, hbx⟩ := (covering_eq_some hL).mp hb
    simp only [lo_eq, hi_eq] at hbx
    have hm : b ∈ meeting L range.start range.stop :=
      mem_meeting.mpr ⟨hbl, by simp only [lo_eq, hi_eq]; omega⟩
    rw [hone, mem_singleton] at hm
    exact hm ▸ hbx
  have h1 := hin range.start ⟨le_rfl, hlt⟩
  have h2 := hin (range.stop - 1) ⟨by omega, by omega⟩
  have he : e ∈ meeting L range.start range.stop := by simp [hone]
  obtain ⟨r, hr, hs, ht⟩ := intersection_of_overlaps (mem_meeting.mp he).2
  refine ⟨(mem_meeting.mp he).1, h1.1, by omega, ?_⟩
  rw [hr, ext_ends (r := r) (q := range) (by omega) (by omega)]

lemma Holds.replaceEntryAtWithProtectSummary_eq (h : Holds t L) (he : e ∈ L)
    (w : VmEntryProtectRewrite) :
    t.replaceEntryAtWithProtectSummary zone heap e.range.start w =
      match e.splitForProtect zone heap w.target w.prot with
      | .error err => .error (recipeTreeVmEntryError err)
      | .ok (heap', cut) => .ok (heap', t.replaceRangeSummary e.range cut.intoEntries) := by
  have hlook : t.lookup e.range.start = some e := by
    rw [h.lookup_eq]
    exact (covering_eq_some h.chained).mpr ⟨he, le_rfl, e.range.start_lt_stop⟩
  unfold replaceEntryAtWithProtectSummary replaceEntryAtWithRewriteSummary
    intoRewriteFor
  rcases hs : e.splitForProtect zone heap w.target w.prot with err | ⟨heap1, cut⟩ <;>
    simp [hlook, hs]

lemma Holds.rewriteProtectOne_eq (h : Holds t L) (hmap : ¬ (!t.rangeIsFullyMapped range) = true)
    (hcount : t.forEachOverlapping range (fun n _ => n + 1) 0 = 1) :
    ∃ (e : VmEntry) (count : ℕ), meeting L range.start range.stop = [e] ∧
      (e ∈ L ∧ e.range.start ≤ range.start ∧ range.stop ≤ e.range.stop ∧
        e.range.intersection range = some range) ∧
      t.rewriteProtectOne zone heap range prot =
        match e.splitForProtect zone heap range prot with
        | .error err => .error (recipeTreeVmEntryError err)
        | .ok (heap', cut) => .ok ⟨heap', (t.replaceRangeSummary e.range cut.intoEntries).1,
            range.pageCount, ⟨count - 1, 0⟩⟩ := by
  rw [forEachOverlapping, h.index.forEachOverlapping_eq, foldl_add_const, Nat.zero_add,
    Nat.one_mul] at hcount
  obtain ⟨e, hone⟩ := length_eq_one_iff.mp hcount
  obtain ⟨hel, h1, h2, hov⟩ := inside_of_single
    ((h.rangeIsFullyMapped_iff range).mp (by simpa using hmap)) h.chained hone
  have hcontains : e.range.containsRange range := ⟨h1, h2⟩
  refine ⟨e, (if e.range.start < range.start then 1 else 0) + 1 +
    (if range.stop < e.range.stop then 1 else 0), hone, ⟨hel, h1, h2, hov⟩, ?_⟩
  have hdesc : t.forEachOverlapping range (untilError (describeProtect range prot))
      (.ok ⟨none, 0, 0⟩) = .ok ⟨some e.range.start, range.pageCount,
        (if e.range.start < range.start then 1 else 0) + 1 +
          (if range.stop < e.range.stop then 1 else 0)⟩ := by
    rw [h.visit, hone]
    simp only [foldlM_cons, describeProtect, hov, replacementCountFor, if_pos hcontains]
    rfl
  unfold rewriteProtectOne
  rw [hdesc]
  simp only [bind, Except.bind, h.replaceEntryAtWithProtectSummary_eq hel]
  rw [if_neg (by omega)]
  rcases e.splitForProtect zone heap range prot with err | ⟨heap1, cut⟩ <;> rfl

/-- **Protecting a range** cuts every entry that overlaps it at the ends of the range, on the path
for one entry and on the path for several. -/
lemma Holds.rewriteProtect_ok (h : Holds t L) (hr : t.rewriteProtect zone heap range prot = .ok r) :
    t.rangeIsFullyMapped range = true ∧ ∃ rs,
      Threaded (Cuts zone range (some prot)) heap (meeting L range.start range.stop) r.heap rs ∧
      Holds r.tree (splice L range.start range.stop rs) := by
  unfold rewriteProtect at hr
  split_ifs at hr with hmap hcount
  · refine ⟨by simpa using hmap, ?_⟩
    obtain ⟨e, count, hone, hin, heq⟩ := h.rewriteProtectOne_eq hmap hcount
    rw [heq] at hr
    split at hr
    · cases hr
    rename_i heap1 w hw
    cases hr
    have hcut : Cuts zone range (some prot) heap e heap1 w.intoEntries :=
      ⟨range, w, hin.2.2.2, hw, rfl⟩
    refine ⟨w.intoEntries, ?_, ?_⟩
    · rw [hone, ← append_nil w.intoEntries]
      exact .cons hcut .nil
    rw [splice_widen h.chained range.start_lt_stop hin.1 hin.2.1 hin.2.2.1]
    exact h.replaceRangeSummary
      (RewriteFits.replacing ⟨hcut.piecesOf.chained, hcut.piecesOf.inside⟩ L)
  · refine ⟨by simpa using hmap, ?_⟩
    rw [h.visit] at hr
    obtain ⟨scan, hscan, hr⟩ := bind_ok hr
    cases hr
    obtain ⟨rs, hth, hrs⟩ := threaded_of_foldlM CutScan.heap CutScan.replacements
      (fun st e he st' hst => cutForProtect_ok hst) hscan
    rw [hrs]
    exact ⟨rs, hth, h.replaceRangeSummary (replacing_of_threaded h.chained hth)⟩

lemma Holds.rewriteProtect_error (h : Holds t L)
    (hr : t.rewriteProtect zone heap range prot = .error err) :
    (err = .missingMapping ∧ t.rangeIsFullyMapped range = false) ∨
      CutFailure zone L range (some prot) err := by
  unfold rewriteProtect at hr
  split_ifs at hr with hmap hcount
  · cases hr
    exact .inl ⟨rfl, by simpa using hmap⟩
  · refine .inr ?_
    obtain ⟨e, count, hone, hin, heq⟩ := h.rewriteProtectOne_eq hmap hcount
    rw [heq] at hr
    split at hr
    · rename_i err' herr
      cases hr
      exact cutFailure_of hin.1 hin.2.2.2 herr rfl fun _ => rfl
    · cases hr
  refine .inr ?_
  rw [h.visit] at hr
  obtain hr | ⟨scan, -, hr⟩ := bind_error hr
  · obtain ⟨e, he, st, hst⟩ := error_of_foldlM hr
    obtain ⟨overlap, hov⟩ := exists_intersection he
    unfold cutForProtect at hst
    rw [hov] at hst
    dsimp only at hst
    split at hst
    · rename_i err' herr
      cases hst
      exact cutFailure_of (mem_meeting.mp he).1 hov herr rfl fun _ => rfl
    · cases hst
  · cases hr

/-! ### Locking -/

/-- **Locking a range** takes every entry that overlaps it as a whole. -/
lemma Holds.rewriteLocked_ok (h : Holds t L) {locked : Bool}
    (hr : t.rewriteLocked heap range locked = .ok r) :
    t.rangeIsFullyMapped range = true ∧ r.heap = heap ∧
      Holds r.tree (splice L range.start range.stop
        ((meeting L range.start range.stop).map fun e => e.withLocked locked)) := by
  unfold rewriteLocked at hr
  split_ifs at hr with hmap
  cases hr
  refine ⟨by simpa using hmap, rfl, ?_⟩
  have hfold : ∀ (l : List VmEntry) (n : ℕ) (out : List VmEntry),
      (l.foldl (fun (r : ℕ × List VmEntry) e =>
        (r.1 + e.range.pageCount, r.2 ++ [e.withLocked locked])) (n, out)).2 =
        out ++ l.map fun e => e.withLocked locked := by
    intro l
    induction l with
    | nil => simp
    | cons e l ih => intro n out; rw [foldl_cons, ih]; simp
  rw [forEachOverlapping, h.index.forEachOverlapping_eq, hfold, nil_append]
  refine h.replaceRangeSummary ((Pieces.map (fun e => e.withLocked locked) _).replacing h.chained
    ?_)
  rintro e es rfl
  exact ⟨chained_singleton _, by simp [withLocked]⟩

end RecipeTree

end TxKernel.Vm
