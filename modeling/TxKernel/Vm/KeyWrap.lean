import TxKernel.Vm.PrivateRuns

/-!
A run in which the keys of a private set wrap around. Every cut adds to the key base of a set, and
nothing takes it back: after enough rounds the last page of a huge range has the largest key, and
the slice for it is empty.
-/

namespace TxKernel.Vm

open TxKernel.Spans TxKernel.Runs
open List UserRange PrivateHeap PrivatePageSet PrivatePageTree VmOp Option
open VmEntry

namespace RecipeIndex

/-- The index has one entry: anonymous memory whose set `s` has a page, for offset zero only. -/
structure Lone (x : RecipeIndex) (range : UserRange) (base : ℕ) (e : VmEntry) (s : ℕ) : Prop where
  holds : x.current.Holds [e]
  range_eq : e.range = range
  backing : e.backing = .privateAnon
  priv : e.owners.priv = some s
  lt : s < x.heap.sets.length
  base_eq : (x.heap.set s).keyBase = base
  within : (x.heap.set s).Within 1 x.heap.frames.length
  nonempty : x.heap.isEmpty s = false

variable {x : RecipeIndex} {old new range front : UserRange} {base s : ℕ} {e : VmEntry}
  {zone : ℕ → Bool}

lemma offsetFits_of_anon (h : e.backing = .privateAnon) (a : ℕ) : e.OffsetFits a := fun o ho => by
  rw [h] at ho
  cases ho

lemma splitRewrite_whole {heap heap' : PrivateHeap} {w : VmEntryRewrite}
    (hs : e.owners.priv = some s)
    (h : e.splitRewrite zone heap e.range (some e.prot) = .ok (heap', w)) :
    heap' = heap ∧ w.target = some e := by
  rcases (splitRewrite_ok h).2 with ⟨-, hp, -⟩ | ⟨-, prot, b, hp, rfl, hb⟩ | ⟨hne, -⟩
  · cases hp
  · cases hp
    have hno : (e.owners.priv.isNone && needsPrivate e.flags e.prot) = false := by
      rw [hs]
      rfl
    unfold protectWhole at hb
    rw [hno] at hb
    cases hb
    exact ⟨rfl, rfl⟩
  · exact absurd rfl hne

lemma keeps_whole {heap heap' : PrivateHeap} {es : List VmEntry}
    (h : Keeps zone e.range new heap e heap' es) : heap' = heap ∧ es = [] := by
  obtain ⟨heap1, es1, hrem, hth⟩ := h
  have hlt := e.range.start_lt_stop
  rcases hrem with ⟨hno, -, -⟩ | ⟨overlap, w, hov, hw, rfl⟩
  · exact absurd ⟨hlt, hlt⟩ hno
  obtain ⟨-, h1, h2⟩ := intersection_eq_some hov
  obtain rfl : overlap = e.range := ext_ends (by omega) (by omega)
  rcases (splitRewrite_ok hw).2 with ⟨-, -, rfl, rfl⟩ | ⟨_, _, _, hp, _⟩ | ⟨hne, -⟩
  · cases hth
    exact ⟨rfl, rfl⟩
  · cases hp
  · exact absurd rfl hne

/-- **The move** keeps set and key base and lets the entry reach over the whole destination. -/
lemma Lone.remap (h : x.Lone old base e s) (happ : ¬ old.overlaps new) (hlen : old.len < new.len) :
    ∃ y e', exec granting x (.remap old new .move .requireFree) = (y, true) ∧
      y.Lone new base e' s := by
  have hrange := h.range_eq
  have hready : x.MoveReady old new .requireFree := by
    refine ⟨(fullyMapped_iff h.holds).mpr fun a ha => ?_, fun _ b hb => ?_, fun b hb => ?_⟩
    · rw [← hrange] at ha
      rw [(covering_eq_some h.holds.chained).mpr ⟨mem_singleton_self e, ha⟩]
      rfl
    all_goals rw [entries_eq h.holds, mem_singleton] at hb; subst hb
    · exact hrange ▸ happ
    have hfit : ∀ a, b.FitsAt a := fun a _ _ => offsetFits_of_anon h.backing a
    exact ⟨hfit _, hfit _, hfit _, hfit _⟩
  obtain ⟨r, hr⟩ := remapDisjoint_isOk h.holds happ hready
    (fun _ => rfl : ∀ n, granting.zone n = true)
  obtain ⟨-, -, source, heap1, moved, grown, kept, hmoved⟩ := h.holds.rewriteRemapDisjoint_ok hr
  obtain rfl : source = old := by
    have h1 := hmoved.isSource.start_eq
    have h2 := hmoved.isSource.len_eq
    have h3 := source.start_add_len
    have h4 := old.start_add_len
    exact ext_ends h1 (by omega)
  subst hrange
  -- the entry moves as a whole
  have hmeet : meeting [e] e.range.start e.range.stop = [e] := by
    have := e.range.start_lt_stop
    simp [meeting, this]
  have hm := hmoved.moves
  rw [hmeet] at hm
  cases hm with
  | @cons _ heap2 _ _ es _ _ hstep hrest =>
  cases hrest
  obtain ⟨overlap, m, hov, hreb, rfl⟩ := hstep
  obtain ⟨-, h1, h2⟩ := intersection_eq_some hov
  obtain rfl : overlap = e.range := ext_ends (by omega) (by omega)
  obtain ⟨w, b, target, hw, hb, rfl, h3, h4⟩ := rebasedEntryForMove_ok hreb
  obtain ⟨rfl, hwt⟩ := splitRewrite_whole h.priv hw
  obtain rfl : b = e := some.inj (hb.symm.trans hwt)
  -- and nothing of it is kept
  have hk := hmoved.keeps
  cases hk with
  | @cons _ heap3 _ _ es _ _ hstep hrest =>
  cases hrest
  obtain ⟨hheap, rfl⟩ := keeps_whole hstep
  rcases RecipeTree.growMoved_cases hmoved.grows with
    ⟨hle, -⟩ | ⟨-, init, last, expanded, hsplit, hgrown, h5, h6⟩
  · omega
  obtain ⟨rfl, hlast⟩ := @append_inj' _ [] [_] _ _ hsplit rfl
  obtain rfl : b.withRangePreservingOwners target = last := by simpa using hlast
  obtain rfl : expanded = new := by
    have h8 := new.start_add_len
    exact ext_ends (h5.trans (by show target.start = _; omega))
      (h6.trans (by show target.stop + _ = _; omega))
  refine ⟨⟨r.tree, r.heap⟩, b.withRangePreservingOwners expanded, ?_, ?_⟩
  · simp only [exec, RecipeIndex.remap, rewriteWith, hr]
    rfl
  have hholds : r.tree.Holds [b.withRangePreservingOwners expanded] := by
    rw [hmoved.tree, hgrown]
    exact holds_single _
  exact ⟨hholds, rfl, h.backing, h.priv, hheap ▸ h.lt, hheap ▸ h.base_eq, hheap ▸ h.within,
    hheap ▸ h.nonempty⟩

lemma pageCount_mul (range : UserRange) :
    range.start + range.pageCount * userPageSize = range.stop := by
  have h1 := range.start_add_len
  have h2 := range.len_aligned
  unfold pageCount userPageSize at *
  omega

/-- **The write** to the last page puts a frame under the last key. -/
lemma Lone.install (h : x.Lone range base e s) (hcount : 2 ≤ range.pageCount)
    (hfit : base + range.pageCount ≤ 2 ^ 64) (frame : PrivateFrame) :
    ∃ pages : PrivatePageTree, exec granting x (.install (range.stop - 1) frame) =
        (⟨x.current, (x.heap.newFrame frame).withPages s pages⟩, true) ∧ pages.Sound ∧
      ∀ k, pages.lookup k = if k = base + range.pageCount - 1 then some x.heap.frames.length
        else (x.heap.set s).pages.lookup k := by
  have hmul := pageCount_mul range
  have hres : x.resolvePrivate (range.stop - 1) = some (s, range.pageCount - 1) := by
    have ha : e.range.containsAddr (range.stop - 1) := by
      rw [h.range_eq]
      unfold userPageSize at hmul
      exact ⟨by omega, by omega⟩
    rw [resolvePrivate_of_mem h.holds (mem_singleton_self e) ha, h.priv, map_some, h.range_eq]
    have : (range.stop - 1 - range.start) / userPageSize = range.pageCount - 1 := by
      unfold userPageSize at *
      omega
    rw [this]
  have hkey : (x.heap.set s).keyFor (range.pageCount - 1) = base + range.pageCount - 1 := by
    rw [keyFor, h.base_eq, Nat.mod_eq_of_lt (by omega)]
    omega
  have hnone : (x.heap.set s).pages.lookup (base + range.pageCount - 1) = none := by
    have : (x.heap.set s).lookup (range.pageCount - 1) = none :=
      h.within.lookup_beyond (by omega) (by omega)
    rwa [PrivatePageSet.lookup, hkey] at this
  have hins : (x.heap.set s).pages.insertIfAbsent (base + range.pageCount - 1)
      x.heap.frames.length = .ok ⟨insertPrivateNode (x.heap.set s).pages.root
        (base + range.pageCount - 1) x.heap.frames.length, (x.heap.set s).pages.len + 1⟩ := by
    rw [insertIfAbsent, hnone]
  obtain ⟨-, h1, h2⟩ := insertIfAbsent_ok h.within.sound hins
  refine ⟨_, ?_, h1, h2⟩
  simp only [exec, installPrivate, hres, installIfAbsent, hkey, hins]
  rfl

/-- **Unmapping** all pages but the last leaves an entry with a slice for that page. -/
lemma unmap_front {z : RecipeIndex} (front : UserRange) (hz : z.current.Holds [e])
    (hb : e.backing = .privateAnon) (hs : e.owners.priv = some s) (hne : z.heap.isEmpty s = false)
    (hstart : front.start = e.range.start) (hstop : front.stop + userPageSize = e.range.stop) :
    ∃ t' b, exec granting z (.unmap front) = (⟨t', z.heap.newSet ((z.heap.set s).sliced
        (e.range.pageCount - 1) e.range.pageCount (e.range.pageCount - 1))⟩, true) ∧
      t'.Holds [b] ∧ b.range.start = front.stop ∧ b.range.stop = e.range.stop ∧
      b.backing = .privateAnon ∧ b.owners.priv = some z.heap.sets.length := by
  have hlt := front.start_lt_stop
  have hpos : 0 < userPageSize := by decide
  obtain ⟨r, hr⟩ : ∃ r, z.current.rewriteUnmap granting.zone z.heap front = .ok r := by
    rcases hr : z.current.rewriteUnmap granting.zone z.heap front with err | r
    · rcases hz.rewriteUnmap_error hr with ⟨-, b, hb', hno⟩ | ⟨perr, -, -, n, hn⟩
      · rw [mem_singleton] at hb'
        subst hb'
        exact absurd ⟨fun hp => (by cases hp), fun _ _ => offsetFits_of_anon hb _⟩ hno
      · cases hn
    · exact ⟨r, rfl⟩
  obtain ⟨rs, hth, hholds⟩ := hz.rewriteUnmap_ok hr
  have hmeet : meeting [e] front.start front.stop = [e] := by
    simp only [meeting, filter_cons, lo_eq, hi_eq, filter_nil]
    rw [if_pos (by rw [decide_eq_true_eq]; omega)]
  rw [hmeet] at hth
  cases hth with
  | @cons _ heap1 _ _ es _ _ hstep hrest =>
  cases hrest
  obtain ⟨overlap, w, hov, hw, rfl⟩ := hstep
  obtain ⟨-, h1, h2⟩ := intersection_eq_some hov
  rcases (splitRewrite_ok hw).2 with ⟨heq, -⟩ | ⟨heq, -⟩ | ⟨-, ha, hb2, hbefore, htarget, hafter⟩
  · rw [heq] at hstop; omega
  · rw [heq] at hstop; omega
  -- only the piece behind the range is left
  have hbefore' := subEntryIf_ok hbefore
  rw [if_neg (by omega)] at hbefore'
  obtain ⟨hw1, rfl⟩ := hbefore'
  simp only [subTarget, Except.ok.injEq, Prod.mk.injEq] at htarget
  obtain ⟨rfl, hw2⟩ := htarget
  have hafter' := subEntryIf_ok hafter
  rw [if_pos (by omega)] at hafter'
  obtain ⟨b, hw3, hsub⟩ := hafter'
  obtain ⟨hp, hpriv⟩ := subEntry_ok hsub
  have hnot : ¬ ∀ s', e.owners.priv = some s' → z.heap.isEmpty s' = true := fun hc => by
    have := hc s hs
    rw [hne] at this
    cases this
  rcases subPrivate_ok hpriv with ⟨-, -, hc⟩ | ⟨set, hheap, hbp, ⟨-, hc⟩ | ⟨s', hs', hset⟩⟩
  · exact absurd hc hnot
  · exact absurd hc hnot
  obtain rfl : s = s' := some.inj (hs.symm.trans hs')
  have hrs : w.intoEntries = [b] := by
    simp [VmEntryRewrite.intoEntries, hw1, ← hw2, hw3]
  have hmul := pageCount_mul e.range
  have hset' : set = (z.heap.set s).sliced (e.range.pageCount - 1) e.range.pageCount
      (e.range.pageCount - 1) := by
    have h3 : overlap.stop / userPageSize - e.range.start / userPageSize =
        e.range.pageCount - 1 := by
      unfold userPageSize at *
      omega
    have h4 : e.range.stop / userPageSize - e.range.start / userPageSize = e.range.pageCount := by
      unfold userPageSize at *
      omega
    rw [hset, h3, h4]
  have hbs := hp.start_eq
  refine ⟨r.tree, b, ?_, ?_, by omega, hp.stop_eq, ?_, hbp⟩
  · simp only [exec, RecipeIndex.unmap, rewriteWith, hr, hheap, hset']
    rfl
  · have hleft : leftOf [e] front.start = [] := filter_eq_nil_iff.mpr (by simp; omega)
    have hright : rightOf [e] front.stop = [] := filter_eq_nil_iff.mpr (by simp; omega)
    rw [splice, hleft, hright, hrs] at hholds
    exact hholds
  · have := hp.backing_eq
    rw [hb] at this
    exact (Except.ok.inj this).symm

/-! ### One round -/

/-- Move a page to the front of `new`, write to the last page of `new`, unmap the others. -/
def round (old new front : UserRange) : List (VmOp × Allocators) :=
  [(.remap old new .move .requireFree, granting),
    (.install (new.stop - 1) ⟨0, .exclusive⟩, granting), (.unmap front, granting)]

structure RoundRanges (old new front last : UserRange) : Prop where
  apart : ¬ old.overlaps new
  longer : old.len < new.len
  count : 2 ≤ new.pageCount
  front_start : front.start = new.start
  front_stop : front.stop + userPageSize = new.stop
  last_start : last.start = front.stop
  last_stop : last.stop = new.stop

variable {last : UserRange}

/-- The entry `b` reads its page through a slice of the tree `pages`, which has the frame `m` under
the `n`-th key from `base` and otherwise the pages of `set`. -/
structure Sliced (w : RecipeIndex) (last : UserRange) (base n : ℕ) (b : VmEntry) (s m : ℕ)
    (set : PrivatePageSet) (pages : PrivatePageTree) : Prop where
  holds : w.current.Holds [b]
  range_eq : b.range = last
  backing : b.backing = .privateAnon
  priv : b.owners.priv = some s
  lt : s < w.heap.sets.length
  frames : w.heap.frames.length = m + 1
  base_eq : set.keyBase = base
  within : set.Within 1 m
  sound : pages.Sound
  lookup : ∀ k, pages.lookup k = if k = base + n - 1 then some m else set.pages.lookup k
  slice : w.heap.set s = (⟨pages, base⟩ : PrivatePageSet).sliced (n - 1) n (n - 1)

lemma Lone.round (h : x.Lone old base e s) (hr : RoundRanges old new front last)
    (hfit : base + new.pageCount ≤ 2 ^ 64) (g : InstalledFrames) :
    ∃ w g', (runSpec step (x, g) (round old new front)).1 = (w, g') ∧
      g' (new.stop - 1) = some ⟨0, .exclusive⟩ ∧
      ∃ b s' m set pages, w.Sliced last base new.pageCount b s' m set pages := by
  obtain ⟨y, e', hmove, hy⟩ := h.remap hr.apart hr.longer
  obtain ⟨pages, hinst, hsound, hlook⟩ := hy.install hr.count hfit ⟨0, .exclusive⟩
  obtain ⟨heap1, hheap1⟩ :
      ∃ heap1, heap1 = (y.heap.newFrame ⟨0, .exclusive⟩).withPages s pages := ⟨_, rfl⟩
  rw [← hheap1] at hinst
  have hset : heap1.set s = ⟨pages, base⟩ := by
    have h1 := hy.lt
    have h2 := hy.base_eq
    simp [hheap1, PrivateHeap.set, PrivateHeap.withPages, PrivateHeap.newFrame,
      getD_eq_getElem?_getD, h1] at h2 ⊢
    exact h2
  have hne : heap1.isEmpty s = false := by
    have hsome : pages.lookup (base + new.pageCount - 1) = some y.heap.frames.length := by
      rw [hlook, if_pos rfl]
    rw [PrivateHeap.isEmpty, hset, decide_eq_false_iff_not]
    intro hz
    rw [hsound.lookup_of_empty hz] at hsome
    cases hsome
  have hre := hy.range_eq
  obtain ⟨t', b, hunmap, hholds, hbs, hbt, hbb, hbp⟩ := unmap_front (z := ⟨y.current, heap1⟩)
    front hy.holds hy.backing hy.priv hne (by rw [hre]; exact hr.front_start)
    (by rw [hre]; exact hr.front_stop)
  rw [hset, hre] at hunmap
  refine ⟨⟨t', heap1.newSet ((⟨pages, base⟩ : PrivatePageSet).sliced (new.pageCount - 1)
      new.pageCount (new.pageCount - 1))⟩,
    ((g.move old new).install (new.stop - 1) ⟨0, .exclusive⟩).clear front, ?_, ?_, b,
    heap1.sets.length, y.heap.frames.length, y.heap.set s, pages, ⟨hholds, ?_, hbb, hbp, ?_, ?_,
    hy.base_eq, hy.within, hsound, hlook, set_newSet _ _⟩⟩
  · simp only [RecipeIndex.round, runSpec, step, hmove, hinst, hunmap, if_true, onFrames]
  · have h1 := hr.front_stop
    have hpos : 0 < userPageSize := by decide
    rw [InstalledFrames.clear, if_neg (by simp only [containsAddr]; omega),
      InstalledFrames.install, if_pos rfl]
    rfl
  · exact ext_ends (hbs.trans hr.last_start.symm)
      (hbt.trans ((congrArg stop hre).trans hr.last_stop.symm))
  · simp [newSet]
  · simp [newSet, hheap1, withPages, newFrame]

variable {w : RecipeIndex} {b : VmEntry} {n m : ℕ} {set : PrivatePageSet}
  {pages : PrivatePageTree} {first : ℕ}

/-- While the keys are in range the slice has the page, and the key base has grown. -/
lemma Sliced.lone (h : w.Sliced last base n b s m set pages) (hn : 2 ≤ n)
    (hfit : base + n < 2 ^ 64) : w.Lone last (base + (n - 1)) b s := by
  have hbase := h.base_eq
  have hkey : set.keyFor (n - 1) = base + n - 1 := by
    rw [keyFor, hbase, Nat.mod_eq_of_lt (by omega)]
    omega
  obtain ⟨hw, hlook⟩ := (h.within.mono (by omega : 1 ≤ n) le_rfl).put (by omega)
    (by omega : n - 1 < n) h.sound (by rw [hkey]; exact h.lookup)
  rw [hbase] at hw hlook
  obtain ⟨h1, h2, h3⟩ := hw.sliced hfit (by omega : n - 1 ≤ n) le_rfl
  have hone : n - (n - 1) = 1 := by omega
  rw [hone, ← h.slice] at h1 h3
  rw [← h.slice] at h2
  refine ⟨h.holds, h.range_eq, h.backing, h.priv, h.lt, h2, h.frames ▸ h1, ?_⟩
  have hfound := h3 0 (by omega)
  rw [Nat.add_zero, hlook (n - 1) (by omega), if_pos rfl] at hfound
  rw [PrivateHeap.isEmpty, decide_eq_false_iff_not]
  intro hz
  rw [h1.lookup_of_empty hz] at hfound
  cases hfound

/-- At the largest key the slice ends at zero and is empty. -/
lemma Sliced.privateFrame_eq_none (h : w.Sliced last base n b s m set pages) (hn : 2 ≤ n)
    (hwrap : base + n = 2 ^ 64) (a : ℕ) : w.privateFrame a = none := by
  have hnone : ∀ k, (w.heap.set s).pages.lookup k = none := by
    intro k
    have hstart : (⟨pages, base⟩ : PrivatePageSet).keyFor (n - 1) = 2 ^ 64 - 1 := by
      rw [keyFor, Nat.mod_eq_of_lt (by show base + (n - 1) < _; omega)]
      show base + (n - 1) = _
      omega
    have hstop : (⟨pages, base⟩ : PrivatePageSet).keyFor n = 0 := by
      rw [keyFor]
      show (base + n) % 2 ^ 64 = 0
      rw [hwrap, Nat.mod_self]
    rw [h.slice, sliced, hstart, hstop, (h.sound.slice _ _).2, if_neg (by omega)]
  rw [privateFrame_eq h.holds]
  refine frames_eq_of_mem (g := fun _ => none) h.holds.chained (fun e he x _ => ?_)
    (fun _ _ => rfl) a
  rw [mem_singleton.mp he, frameAt_of_some h.priv, PrivatePageSet.lookup, hnone, map_none]

/-! ### Enough rounds -/

def regionStart (upper : Bool) : ℕ := if upper then 2 ^ 51 else 1

lemma region_fits (upper : Bool) {count : ℕ} (h : 0 < count ∧ first + count ≤ 2 ^ 50 + 1) :
    0 < count ∧ (regionStart upper + first + count) * userPageSize < 2 ^ 64 := by
  refine ⟨h.1, ?_⟩
  cases upper <;> simp only [regionStart, userPageSize, if_true, Bool.false_eq_true, if_false] <;>
    omega

def regionPages (upper : Bool) (first count : ℕ) (h : 0 < count ∧ first + count ≤ 2 ^ 50 + 1) :
    UserRange :=
  .pages (regionStart upper + first) count (region_fits upper h)

def regionPage (upper : Bool) (first : ℕ) (h : first ≤ 2 ^ 50) : UserRange :=
  regionPages upper first 1 (by omega)

lemma pageCount_regionPages (upper : Bool) (first count : ℕ)
    (h : 0 < count ∧ first + count ≤ 2 ^ 50 + 1) :
    (regionPages upper first count h).pageCount = count := by
  simp only [regionPages, UserRange.pages, UserRange.len, UserRange.pageCount, userPageSize]
  omega

lemma roundRanges (upper : Bool) (hf : first ≤ 2 ^ 50) (count : ℕ) (h1 : 1 ≤ count)
    (h2 : count ≤ 2 ^ 50) :
    RoundRanges (regionPage upper first hf) (regionPages (!upper) 0 (count + 1) (by omega))
      (regionPages (!upper) 0 count (by omega)) (regionPage (!upper) count h2) := by
  constructor <;> cases upper <;>
    simp only [regionPage, regionPages, UserRange.pages, UserRange.overlaps, UserRange.len,
      UserRange.pageCount, regionStart, userPageSize, Bool.not_true, Bool.not_false, if_true,
      Bool.false_eq_true, if_false] <;> omega

def wrapStart : List (VmOp × Allocators) :=
  [(.map (regionPage false 0 (by omega)) ⟨true, true, false⟩ ⟨false, false, false⟩ .privateAnon
      .requireFree, granting),
    (.install userPageSize ⟨0, .exclusive⟩, granting)]

lemma lone_wrapStart : ∃ x g e s, (runSpec step (.new, fun _ => none) wrapStart).1 = (x, g) ∧
    x.Lone (regionPage false 0 (by omega)) 0 e s := by
  have hins : default.insertIfAbsent 0 0 =
      .ok ⟨insertPrivateNode .nil 0 0, 1⟩ := rfl
  obtain ⟨-, h1, h2⟩ := insertIfAbsent_ok sound_default hins
  refine ⟨⟨_, _⟩, _, (VmEntry.new (regionPage false 0 (by omega)) ⟨true, true, false⟩
    ⟨false, false, false⟩ .privateAnon).withPrivate (some 0), 0, rfl, ?_⟩
  exact ⟨holds_single _, rfl, rfl, rfl, by decide, by decide +kernel,
    (within_new.put (n := 1) (m := 0) (by decide) (by decide : 0 < 1) h1 h2).1,
    by decide +kernel⟩

/-- After `k` rounds over a whole region the key base has grown `k` times. -/
lemma lone_after_rounds (k : ℕ) (hk : k < 2 ^ 14) : ∃ ops x g e s upper first,
    ∃ hf : first ≤ 2 ^ 50, (runSpec step (.new, fun _ => none) ops).1 = (x, g) ∧
      x.Lone (regionPage upper first hf) (k * 2 ^ 50) e s := by
  induction k with
  | zero =>
    obtain ⟨x, g, e, s, hrun, h⟩ := lone_wrapStart
    exact ⟨wrapStart, x, g, e, s, false, 0, by omega, hrun, by simpa using h⟩
  | succ k ih =>
    obtain ⟨ops, x, g, e, s, upper, first, hf, hrun, h⟩ := ih (by omega)
    have hr := roundRanges upper hf (2 ^ 50) (by omega) le_rfl
    have hcount := pageCount_regionPages (!upper) 0 (2 ^ 50 + 1) (by omega)
    obtain ⟨w, g', hrun', -, b, s', m, set, pages, hsl⟩ :=
      h.round hr (by rw [hcount]; omega) g
    refine ⟨_, w, g', b, s', !upper, 2 ^ 50, le_rfl, (runSpec_append _ _ ops _).trans
      (hrun ▸ hrun'), ?_⟩
    rw [hcount] at hsl
    have hlone := hsl.lone (by omega) (by omega)
    rwa [show k * 2 ^ 50 + (2 ^ 50 + 1 - 1) = (k + 1) * 2 ^ 50 by omega] at hlone

/-- A run after which a page has lost the frame that was last installed for it. -/
theorem written_page_lost_at_key_wrap :
    ∃ (ops : List (VmOp × Allocators)) (a : ℕ),
      (runSpec VmOp.step (.new, fun _ => none) ops).1.2 a = some ⟨0, .exclusive⟩ ∧
        (runSpec VmOp.step (.new, fun _ => none) ops).1.1.privateFrame a = none := by
  obtain ⟨ops, x, g, e, s, upper, first, hf, hrun, h⟩ :=
    lone_after_rounds (2 ^ 14 - 1) (by omega)
  have hr := roundRanges upper hf (2 ^ 50 - 1) (by omega) (by omega)
  have hcount := pageCount_regionPages (!upper) 0 (2 ^ 50 - 1 + 1) (by omega)
  obtain ⟨w, g', hrun', hg, b, s', m, set, pages, hsl⟩ := h.round hr (by rw [hcount]; omega) g
  have hall := (runSpec_append VmOp.step (.new, fun _ => none) ops _).trans (hrun ▸ hrun')
  refine ⟨_, _, by rw [hall]; exact hg, ?_⟩
  rw [hall]
  exact hsl.privateFrame_eq_none (by omega) (by omega) _

end RecipeIndex

end TxKernel.Vm
