import TxKernel.Vm.RecipeScan

/-!
The address space as a map from addresses to protection, flags, userfaultfd tag and backing page.
Unmapping, mapping over a range, protecting and locking are functions on that map, which the
rewrites of the index compute whenever they succeed.
-/

namespace TxKernel.Vm

open TxKernel.Spans VmEntry RecipeTree UserRange Option

abbrev PageMap := ℕ → Option PageMeaning

namespace PageBacking

/-- The vdso frames are counted from the start of a mapping, so that a page behind a cut reads from
another one than before. -/
def cutAt (c x : ℕ) : PageBacking → PageBacking
  | .special .vdsoText i =>
    .special .vdsoText (if c ≤ x then min i ((x - c) / userPageSize) else i)
  | b => b

lemma cutAt_of_lt (b : PageBacking) {c x : ℕ} (h : x < c) : b.cutAt c x = b := by
  unfold cutAt
  split
  · rw [if_neg (by omega)]
  · rfl

end PageBacking

namespace PageMeaning

def withProt (m : PageMeaning) (prot : Prot) : PageMeaning := { m with prot := prot }

def withLocked (m : PageMeaning) (locked : Bool) : PageMeaning :=
  { m with flags := { m.flags with locked := locked } }

/-- What the page at `x` means once its mapping is cut at `c`. -/
def cutAt (m : PageMeaning) (c x : ℕ) : PageMeaning := { m with backing := m.backing.cutAt c x }

lemma cutAt_of_lt (m : PageMeaning) {c x : ℕ} (h : x < c) : m.cutAt c x = m := by
  rw [cutAt, PageBacking.cutAt_of_lt _ h]

end PageMeaning

lemma VmEntry.meaningAt_cutAt (e : VmEntry) {c : ℕ} (x : ℕ) (h : c ≤ e.range.start) :
    (e.meaningAt x).cutAt c x = e.meaningAt x := by
  have hle : (x - e.range.start) / userPageSize ≤ (x - c) / userPageSize :=
    Nat.div_le_div_right (by omega)
  have hb : (e.backingAt x).cutAt c x = e.backingAt x := by
    unfold backingAt
    split <;> simp [PageBacking.cutAt, Nat.min_eq_left hle]
  rw [PageMeaning.cutAt, meaningAt, hb]

namespace PageMap

def cutAt (m : PageMap) (c : ℕ) : PageMap := fun a => (m a).map fun p => p.cutAt c a

def insert (m : PageMap) (q : VmEntry) : PageMap :=
  fun a => if q.range.containsAddr a then some (q.meaningAt a) else m a

def unmap (m : PageMap) (range : UserRange) : PageMap :=
  fun a => if range.containsAddr a then none else m.cutAt range.stop a

def mapFixed (m : PageMap) (q : VmEntry) : PageMap := (m.cutAt q.range.stop).insert q

def protect (m : PageMap) (range : UserRange) (prot : Prot) : PageMap :=
  fun a =>
    if range.containsAddr a then (m.cutAt range.start a).map fun p => p.withProt prot
    else m.cutAt range.stop a

end PageMap

/-! ### Pieces mean what their entry meant -/

variable {prot : Prot}

lemma PieceOf.meaningAt {e b : VmEntry} {start stop x : ℕ} (h : PieceOf e start stop prot b)
    (hs : e.range.start ≤ start) (hx : start ≤ x) :
    b.meaningAt x = ((e.meaningAt x).cutAt start x).withProt prot := by
  simp only [VmEntry.meaningAt, VmEntry.backingAt, h.special_eq, h.start_eq, h.page_eq, h.prot_eq,
    h.flags_eq, h.ufd_eq]
  rcases e.owners.special with _ | _ | _
  · obtain ⟨h1, h2⟩ | ⟨h1, h2⟩ | ⟨o, o', h1, h2, ho⟩ :=
      VmEntryBacking.atRangeOffset_ok h.backing_eq
    · simp only [h1, h2]
      rfl
    · simp only [h1, h2]
      rfl
    simp only [h1, h2, PageMeaning.cutAt, PageBacking.cutAt, PageMeaning.withProt,
      PageMeaning.mk.injEq, PageBacking.page.injEq, true_and]
    omega
  · rfl
  · have hle : (x - start) / userPageSize ≤ (x - e.range.start) / userPageSize :=
      Nat.div_le_div_right (by omega)
    simp only [PageMeaning.cutAt, PageBacking.cutAt, if_pos hx, Nat.min_eq_right hle,
      PageMeaning.withProt]

/-- What a cut at `range` makes of the meaning of an address. -/
def cutMeaning (range : UserRange) (p : Option Prot) (x : ℕ) (m : PageMeaning) :
    Option PageMeaning :=
  if range.containsAddr x then p.map (m.cutAt range.start x).withProt
  else some (m.cutAt range.stop x)

/-- Outside the range only the pages of an entry that the range cuts are counted anew. -/
lemma cutMeaning_of_apart {e : VmEntry} {range : UserRange} {p : Option Prot} {x : ℕ}
    (hno : ¬ e.range.overlaps range) (hx : e.range.containsAddr x) :
    cutMeaning range p x (e.meaningAt x) = some (e.meaningAt x) := by
  have hlt := range.start_lt_stop
  rw [cutMeaning, if_neg fun hr => hno ⟨by omega, by omega⟩]
  rcases Nat.lt_or_ge e.range.start range.stop with h | h
  · rw [PageMeaning.cutAt_of_lt _ (by
      by_contra hge
      exact hno ⟨h, by omega⟩)]
  · rw [e.meaningAt_cutAt x h]

section

variable {zone : ℕ → Bool} {range : UserRange} {p : Option Prot} {heap heap' : PrivateHeap}

lemma Cuts.view_meaningAt {e : VmEntry} {es : List VmEntry} (h : Cuts zone range p heap e heap' es)
    {x : ℕ} (h1 : e.range.start ≤ x) (h2 : x < e.range.stop) :
    view meaningAt es x = cutMeaning range p x (e.meaningAt x) := by
  obtain ⟨overlap, w, hs, ht, hcut, rfl⟩ := h.cutAt
  have hwith : (e.meaningAt x).withProt e.prot = e.meaningAt x := rfl
  have hin : range.containsAddr x ↔ overlap.start ≤ x ∧ x < overlap.stop := by
    simp only [containsAddr]; omega
  -- an address is looked up in the piece that holds it
  have hcover : ∀ b ∈ w.intoEntries, b.range.containsAddr x →
      view meaningAt w.intoEntries x = some (b.meaningAt x) := fun b hb hbx => by
    rw [view, (covering_eq_some hcut.chained).mpr ⟨hb, hbx⟩, map_some]
  have hmem : ∀ b, b ∈ w.intoEntries ↔
      b ∈ w.before.toList ∨ b ∈ w.target.toList ∨ b ∈ w.after.toList := by
    simp [VmEntryRewrite.intoEntries]
  unfold cutMeaning
  rcases Nat.lt_or_ge x overlap.start with hlt | hge
  · have hb := hcut.before
    rw [if_pos (by omega)] at hb
    obtain ⟨b, hb, hp⟩ := hb
    rw [if_neg (by rw [hin]; omega), hcover b ((hmem b).mpr (.inl (by simp [hb])))
      (by simp only [containsAddr, hp.start_eq, hp.stop_eq]; omega),
      hp.meaningAt le_rfl h1, e.meaningAt_cutAt x le_rfl, hwith,
      PageMeaning.cutAt_of_lt _ (by have := range.start_lt_stop; omega)]
  rcases Nat.lt_or_ge x overlap.stop with hlt | hge'
  · rw [if_pos (hin.mpr ⟨hge, hlt⟩)]
    rcases p with _ | prot
    · have hnone : covering w.intoEntries x = none := covering_eq_none.mpr fun b hb hbx => by
        simp only [lo_eq, hi_eq] at hbx
        rcases (hmem b).mp hb with hb | hb | hb
        · obtain ⟨-, hp⟩ := hcut.before_toList b hb
          have := hp.stop_eq
          omega
        · obtain ⟨prot, hno, -⟩ := hcut.target_toList b hb
          cases hno
        · obtain ⟨-, hp⟩ := hcut.after_toList b hb
          have := hp.start_eq
          omega
      rw [view, hnone]
      rfl
    · obtain ⟨b, hb, hp⟩ := hcut.target
      rw [hcover b ((hmem b).mpr (.inr (.inl (by simp [hb]))))
        (by simp only [containsAddr, hp.start_eq, hp.stop_eq]; omega),
        hp.meaningAt (by omega) hge, map_some]
      congr 2
      -- the target starts where the entry does or where the range does
      rcases Nat.le_total range.start e.range.start with hle | hle
      · rw [hs, max_eq_left hle, e.meaningAt_cutAt x le_rfl, e.meaningAt_cutAt x hle]
      · rw [hs, max_eq_right hle]
  · have ha := hcut.after
    rw [if_pos (by omega)] at ha
    obtain ⟨b, hb, hp⟩ := ha
    have hlt := overlap.start_lt_stop
    rw [if_neg (by rw [hin]; omega), hcover b ((hmem b).mpr (.inr (.inr (by simp [hb]))))
      (by simp only [containsAddr, hp.start_eq, hp.stop_eq]; omega),
      hp.meaningAt (by omega) hge', show overlap.stop = range.stop by omega]
    rfl

/-- **Cutting a list of entries** changes the meaning of the range and of nothing else. -/
lemma view_of_threaded {L rs : List VmEntry} (hL : Chained L)
    (h : Threaded (Cuts zone range p) heap (meeting L range.start range.stop) heap' rs) (x : ℕ) :
    view meaningAt (splice L range.start range.stop rs) x =
      (view meaningAt L x).bind (cutMeaning range p x) := by
  refine view_splice_pieces hL range.start_lt_stop.le (pieces_of_threaded h)
    (fun _ _ h => h.1) ?_ ?_ x
  · rintro e - es ⟨-, heap1, heap2, hc⟩ x h1 h2
    exact hc.view_meaningAt h1 h2
  · intro e he hside x h1 h2
    simp only [lo_eq, hi_eq] at hside
    have hno : ¬ e.range.overlaps range := by simp only [overlaps]; omega
    exact (cutMeaning_of_apart hno ⟨h1, h2⟩).symm

end

/-! ### The index as a page map -/

/-- Every allocation of the operation succeeds. -/
def Allocators.Permit (alloc : Allocators) : Prop :=
  (∀ n, alloc.zone n = true) ∧ alloc.publish = true

namespace RecipeIndex

/-- The published tree is a search tree of disjoint entries, with its counters right. -/
def WellFormed (x : RecipeIndex) : Prop := ∃ L, x.current.Holds L

def pages (x : RecipeIndex) : PageMap := fun a => (x.lookup a).map fun e => e.meaningAt a

def entries (x : RecipeIndex) : List VmEntry := x.current.valuesVec

variable {x : RecipeIndex} {L : List VmEntry} {alloc : Allocators} {range : UserRange}

lemma pages_eq (h : x.current.Holds L) : x.pages = view meaningAt L := by
  funext a
  rw [pages, lookup, h.lookup_eq, view]

lemma entries_eq (h : x.current.Holds L) : x.entries = L := h.index.valuesVec_eq

/-- An operation took the index `x` to the pages `m`, or failed and changed nothing. It succeeds
only under `ok`, and then whenever the allocators permit. -/
structure Effect (alloc : Allocators) (x : RecipeIndex)
    (result : RecipeIndex × Except VmMapError VmMapCommit) (m : PageMap) (ok : Prop) : Prop where
  wellFormed : result.1.WellFormed
  success : ∀ commit, result.2 = .ok commit → ok ∧ result.1.pages = m
  failure : ∀ err, result.2 = .error err → result.1 = x
  succeeds : alloc.Permit → ok → ∃ commit, result.2 = .ok commit

lemma effect_rewriteWith {m : PageMap} {ok : Prop} (hx : x.WellFormed)
    {rewrite : PrivateHeap → RecipeTree → Except VmMapError RecipeRewrite}
    (hok : ∀ r, rewrite x.heap x.current = .ok r →
      ok ∧ ∃ L', r.tree.Holds L' ∧ view meaningAt L' = m)
    (herr : ∀ err, rewrite x.heap x.current = .error err → (∀ n, alloc.zone n = true) → ¬ ok) :
    Effect alloc x (x.rewriteWith alloc rewrite) m ok := by
  unfold rewriteWith
  rcases hr : rewrite x.heap x.current with err | r
  · refine ⟨hx, fun _ hc => (by cases hc), fun _ _ => rfl, fun hp ho => ?_⟩
    exact absurd ho (herr err hr hp.1)
  obtain ⟨ho, L', hL', hm⟩ := hok r hr
  by_cases hpub : alloc.publish
  · simp only [hpub, if_true]
    refine ⟨⟨L', hL'⟩, fun _ _ => ⟨ho, ?_⟩, fun _ hc => (by cases hc), fun _ _ => ⟨_, rfl⟩⟩
    rw [pages_eq hL', hm]
  · simp only [hpub, Bool.false_eq_true, if_false]
    exact ⟨hx, fun _ hc => (by cases hc), fun _ _ => rfl,
      fun hp _ => absurd hp.2 hpub⟩

lemma not_fit_of_cutFailure {zone : ℕ → Bool} {p : Option Prot} {err : VmMapError}
    (h : CutFailure zone L range p err) (hz : ∀ n, zone n = true) :
    ¬ ∀ e ∈ L, e.CutsFit range p := by
  rcases h with ⟨-, e, he, hno⟩ | ⟨perr, -, -, n, hn⟩
  · exact fun hall => hno (hall e he)
  · simp [hz n] at hn

lemma unmap_effect (h : x.WellFormed) :
    Effect alloc x (x.unmap alloc range) (x.pages.unmap range)
      (∀ e ∈ x.entries, e.CutsFit range none) := by
  obtain ⟨L, hL⟩ := h
  rw [entries_eq hL]
  refine effect_rewriteWith ⟨L, hL⟩ (fun r hr => ?_) fun err herr hz => ?_
  · obtain ⟨rs, hth, hholds⟩ := hL.rewriteUnmap_ok hr
    refine ⟨cutsFit_of_meeting (cutsFit_of_threaded hth), _, hholds, ?_⟩
    funext a
    rw [view_of_threaded hL.chained hth, PageMap.unmap, PageMap.cutAt, pages_eq hL]
    rcases view meaningAt L a with _ | m
    · simp
    · rw [bind_some, cutMeaning, map_none, map_some]
  · exact not_fit_of_cutFailure (hL.rewriteUnmap_error herr) hz

lemma view_splice_one (hL : Chained L) {q : VmEntry} (hfree : ∀ a ∈ L, ¬ a.range.overlaps q.range)
    (a : ℕ) :
    view meaningAt (splice L q.range.start q.range.stop [q]) a =
      if q.range.containsAddr a then some (q.meaningAt a) else view meaningAt L a := by
  have hrep : Replacing L q.range.start q.range.stop [q] :=
    ⟨chained_singleton q, fun b hb x h1 h2 => by
      rw [List.mem_singleton] at hb
      exact .inl (hb ▸ ⟨h1, h2⟩)⟩
  have hle := q.range.start_lt_stop.le
  unfold view
  split_ifs with ha
  · rw [covering_splice_inside hL hrep hle (.inl ha)]
    have : covering [q] a = some q := (covering_eq_some (chained_singleton q)).mpr ⟨by simp, ha⟩
    rw [this, map_some]
  · rcases hc : covering L a with _ | e
    · rw [covering_splice_none hrep hc ha]
    · rw [covering_splice_outside hL hle hrep hc (hfree e ((covering_eq_some hL).mp hc).1)]

lemma commitMap_effect (h : x.WellFormed) (q : VmEntry) :
    Effect alloc x (x.commitMap alloc q .fixedReplace) (x.pages.mapFixed q)
      (∀ e ∈ x.entries, e.CutsFit q.range none) := by
  obtain ⟨L, hL⟩ := h
  rw [entries_eq hL, commitMap]
  refine effect_rewriteWith ⟨L, hL⟩ (fun r hr => ?_) fun err herr hz => ?_
  · obtain ⟨rs, hth, hholds⟩ := hL.rewriteFixed_ok hr
    refine ⟨cutsFit_of_meeting (cutsFit_of_threaded hth), _, hholds, ?_⟩
    have hsp := hL.chained.splice q.range.start_lt_stop.le
      (replacing_of_threaded hL.chained hth)
    funext a
    rw [view_splice_one hsp (free_of_threaded hth), PageMap.mapFixed, PageMap.insert,
      PageMap.cutAt, pages_eq hL]
    by_cases ha : q.range.containsAddr a
    · rw [if_pos ha, if_pos ha]
    rw [if_neg ha, if_neg ha, view_of_threaded hL.chained hth]
    rcases view meaningAt L a with _ | m
    · rfl
    · rw [bind_some, cutMeaning, if_neg ha, map_some]
  · exact not_fit_of_cutFailure (hL.rewriteFixed_error herr) hz

def FullyMapped (x : RecipeIndex) (range : UserRange) : Prop :=
  ∀ a, range.containsAddr a → (x.pages a).isSome

def HasProtection (x : RecipeIndex) (range : UserRange) (prot : Prot) : Prop :=
  ∀ a, range.containsAddr a → (x.pages a).map PageMeaning.prot = some prot

lemma rangeIsFullyMapped_iff (hL : x.current.Holds L) :
    x.current.rangeIsFullyMapped range = true ↔ x.FullyMapped range := by
  rw [hL.rangeIsFullyMapped_iff, FullyMapped, pages_eq hL]
  simp [view]

lemma rangeIsFullyMapped_eq_false (hL : x.current.Holds L) (h : ¬ x.FullyMapped range) :
    x.current.rangeIsFullyMapped range = false := by
  rwa [← Bool.not_eq_true, rangeIsFullyMapped_iff hL]

lemma hasProtection_iff (hL : x.current.Holds L) (hmap : x.FullyMapped range) :
    (∀ e ∈ meeting L range.start range.stop, e.prot = prot) ↔ x.HasProtection range prot := by
  unfold FullyMapped at hmap
  unfold HasProtection
  rw [pages_eq hL] at hmap ⊢
  constructor
  · intro hall a ha
    obtain ⟨e, he⟩ := isSome_iff_exists.mp (by simpa [view] using hmap a ha)
    obtain ⟨hel, hea⟩ := (covering_eq_some hL.chained).mp he
    simp only [lo_eq, hi_eq] at hea
    have hprot := hall e (mem_meeting.mpr ⟨hel, by simp only [lo_eq, hi_eq]; omega⟩)
    simp [view, he, meaningAt, hprot]
  intro hall e he
  obtain ⟨hel, h1, h2⟩ := mem_meeting.mp he
  simp only [lo_eq, hi_eq] at h1 h2
  have hlt := e.range.start_lt_stop
  have hlt' := range.start_lt_stop
  -- an address that entry and range share
  have hcov : covering L (max e.range.start range.start) = some e :=
    (covering_eq_some hL.chained).mpr ⟨hel, by simp only [lo_eq, hi_eq]; omega⟩
  have := hall (max e.range.start range.start) (by simp only [containsAddr]; omega)
  simpa [view, hcov, meaningAt] using this

lemma HasProtection.fullyMapped (h : x.HasProtection range prot) : x.FullyMapped range :=
  fun a ha => by
    rw [← isSome_map (f := PageMeaning.prot), h a ha]
    rfl

lemma protect_of_hasProtection (h : x.WellFormed) (hprot : x.HasProtection range prot) :
    ∃ commit, x.protect alloc range prot = (x, .ok commit) := by
  obtain ⟨L, hL⟩ := h
  unfold protect
  rw [hL.rangeHasProtection, if_pos ((rangeIsFullyMapped_iff hL).mpr hprot.fullyMapped),
    decide_eq_true ((hasProtection_iff hL hprot.fullyMapped).mpr hprot)]
  exact ⟨_, rfl⟩

lemma protect_effect (h : x.WellFormed) (hprot : ¬ x.HasProtection range prot) :
    Effect alloc x (x.protect alloc range prot) (x.pages.protect range prot)
      (x.FullyMapped range ∧ ∀ e ∈ x.entries, e.CutsFit range (some prot)) := by
  obtain ⟨L, hL⟩ := h
  have hmapped : x.current.rangeIsFullyMapped range = true ↔ x.FullyMapped range :=
    rangeIsFullyMapped_iff hL
  unfold protect
  rw [hL.rangeHasProtection, entries_eq hL]
  by_cases hmap : x.FullyMapped range
  · rw [if_pos (hmapped.mpr hmap)]
    have hno : decide (∀ e ∈ meeting L range.start range.stop, e.prot = prot) = false := by
      rw [decide_eq_false_iff_not, hasProtection_iff hL hmap]
      exact hprot
    rw [hno]
    refine effect_rewriteWith ⟨L, hL⟩ (fun r hr => ?_) fun err herr hz => ?_
    · obtain ⟨-, rs, hth, hholds⟩ := hL.rewriteProtect_ok hr
      refine ⟨⟨hmap, cutsFit_of_meeting (cutsFit_of_threaded hth)⟩, _, hholds, ?_⟩
      funext a
      rw [view_of_threaded hL.chained hth, PageMap.protect, PageMap.cutAt, PageMap.cutAt,
        pages_eq hL]
      rcases view meaningAt L a with _ | m
      · simp
      · simp [cutMeaning]
    · rcases hL.rewriteProtect_error herr with ⟨-, hm⟩ | hf
      · rw [hmapped.mpr hmap] at hm
        cases hm
      exact fun hc => not_fit_of_cutFailure hf hz hc.2
  · rw [rangeIsFullyMapped_eq_false hL hmap]
    exact ⟨⟨L, hL⟩, fun _ hc => (by cases hc), fun _ _ => rfl, fun _ ho => absurd ho.1 hmap⟩

lemma protect_missing (h : x.WellFormed) (hmap : ¬ x.FullyMapped range) :
    (x.protect alloc range prot).2 = .error .missingMapping := by
  obtain ⟨L, hL⟩ := h
  unfold protect
  rw [hL.rangeHasProtection, rangeIsFullyMapped_eq_false hL hmap]
  rfl

/-- **Rewrites of a range.** Unmapping, mapping over a range and protecting act on the page map as
their names say, but that the vdso pages of a mapping that is cut are counted from the cut. They
fail only if a page to protect is missing, if a file offset at an end of the range overflows, or for
want of memory, and then the published index is the old one. -/
theorem rewrites_act_on_their_range (alloc : Allocators) {x : RecipeIndex} (h : x.WellFormed)
    (range : UserRange) (q : VmEntry) (prot : Prot) :
    Effect alloc x (x.unmap alloc range) (x.pages.unmap range)
      (∀ e ∈ x.entries, e.CutsFit range none) ∧
    Effect alloc x (x.commitMap alloc q .fixedReplace) (x.pages.mapFixed q)
      (∀ e ∈ x.entries, e.CutsFit q.range none) ∧
    (x.HasProtection range prot → ∃ commit, x.protect alloc range prot = (x, .ok commit)) ∧
    (¬ x.HasProtection range prot →
      Effect alloc x (x.protect alloc range prot) (x.pages.protect range prot)
        (x.FullyMapped range ∧ ∀ e ∈ x.entries, e.CutsFit range (some prot))) ∧
    (¬ x.FullyMapped range → (x.protect alloc range prot).2 = .error .missingMapping) :=
  ⟨unmap_effect h, commitMap_effect h q, protect_of_hasProtection h, protect_effect h,
    protect_missing h⟩

def granting : Allocators := ⟨fun _ => true, true⟩

def single (e : VmEntry) : RecipeIndex := ⟨RecipeTree.new.insertEntry e, .empty⟩

lemma holds_single (e : VmEntry) : (single e).current.Holds [e] := by
  have := holds_new.insertEntry (e := e) (by simp)
  simpa [single, splice, leftOf, rightOf] using this

def filePages (offset : UInt64) : VmEntry :=
  .new (.pages 16 2 (by decide)) ⟨true, false, false⟩ ⟨true, false, false⟩ (.page 0 offset)

def secondPage : UserRange := .pages 17 1 (by decide)

lemma fullyMapped_secondPage (offset : UInt64) :
    (single (filePages offset)).FullyMapped secondPage := by
  intro a ha
  have hcov : covering [filePages offset] a = some (filePages offset) :=
    (covering_eq_some (chained_singleton _)).mpr ⟨by simp, by
      have := ha.1
      have := ha.2
      simp only [secondPage, UserRange.pages, filePages, VmEntry.new, userPageSize, lo_eq,
        hi_eq] at *
      omega⟩
  simp [pages_eq (holds_single _), view, hcov]

/-- Protecting the second of two mapped pages of the file from its front on goes through. -/
theorem protect_second_page_of_file :
    let x := single (filePages 0)
    let y := x.protect granting secondPage ⟨true, true, false⟩
    (∃ commit, y.2 = .ok commit) ∧ y.1.pages = x.pages.protect secondPage ⟨true, true, false⟩ := by
  have hprot : ¬ (single (filePages 0)).HasProtection secondPage ⟨true, true, false⟩ := fun hc =>
    absurd (hc (17 * userPageSize) (by decide)) (by decide +kernel)
  have heff := (rewrites_act_on_their_range granting (x := single (filePages 0))
    ⟨_, holds_single _⟩ secondPage (filePages 0) ⟨true, true, false⟩).2.2.2.1 hprot
  have hfit : ∀ e ∈ (single (filePages 0)).entries,
      e.CutsFit secondPage (some ⟨true, true, false⟩) := by
    intro e he
    rw [entries_eq (holds_single _), List.mem_singleton] at he
    have hoff : ∀ a, a < 2 ^ 64 → e.OffsetFits a := by
      rintro a ha o ho
      rw [he] at ho
      cases ho
      rw [UInt64.toNat_zero]
      omega
    exact ⟨fun _ _ _ => hoff _ (by decide), fun _ _ => hoff _ (by decide)⟩
  obtain ⟨commit, hc⟩ := heff.succeeds ⟨fun _ => rfl, rfl⟩ ⟨fullyMapped_secondPage 0, hfit⟩
  exact ⟨⟨commit, hc⟩, (heff.success commit hc).2⟩

/-- Every page is mapped and memory is there, but the second page of the mapping would start at
file offset `2 ^ 64`. -/
theorem protect_overflows_on_mapped_pages :
    ∃ x : RecipeIndex, x.WellFormed ∧ x.FullyMapped secondPage ∧ granting.Permit ∧
      (x.protect granting secondPage ⟨true, true, false⟩).2 = .error .backingOffsetOverflow :=
  ⟨single (filePages 0xfffffffffffff000), ⟨_, holds_single _⟩, fullyMapped_secondPage _,
    ⟨fun _ => rfl, rfl⟩, by decide +kernel⟩

/-- The second page of the vdso text reads from the first frame once the first page is unmapped. -/
example :
    let x := single (.new (.pages 16 2 (by decide)) ⟨true, false, true⟩ ⟨true, false, false⟩
      (.special .vdsoText))
    let y := (x.unmap granting (.pages 16 1 (by decide))).1
    (x.pages (17 * userPageSize)).map PageMeaning.backing = some (.special .vdsoText 1) ∧
      (y.pages (17 * userPageSize)).map PageMeaning.backing = some (.special .vdsoText 0) := by
  decide +kernel

/-! ### Locking -/

lemma pages_setLocked (h : x.WellFormed) (hmap : x.FullyMapped range) (locked : Bool)
    (hpub : alloc.publish = true) :
    (∃ commit, (x.setLocked alloc range locked).2 = .ok commit) ∧
      (x.setLocked alloc range locked).1.WellFormed ∧
      ∀ a, (x.setLocked alloc range locked).1.pages a = (x.lookup a).map fun e =>
        if e.range.overlaps range then (e.meaningAt a).withLocked locked else e.meaningAt a := by
  obtain ⟨L, hL⟩ := h
  have hm := (rangeIsFullyMapped_iff hL).mpr hmap
  unfold setLocked rewriteWith
  rcases hr : x.current.rewriteLocked x.heap range locked with err | r
  · unfold rewriteLocked at hr
    simp [hm] at hr
  obtain ⟨-, -, hholds⟩ := hL.rewriteLocked_ok hr
  simp only [hr, hpub, if_true]
  refine ⟨⟨_, rfl⟩, ⟨_, hholds⟩, fun a => ?_⟩
  -- each entry that meets the range is its own single piece
  have hview : ∀ a, view meaningAt (splice L range.start range.stop
      ((meeting L range.start range.stop).map fun e => e.withLocked locked)) a =
      (view (fun e _ => e) L a).bind fun e => some
        (if e.range.overlaps range then (e.meaningAt a).withLocked locked
          else e.meaningAt a) := by
    refine view_splice_pieces hL.chained range.start_lt_stop.le (Pieces.map _ _) ?_ ?_ ?_
    · rintro e es rfl
      exact ⟨chained_singleton _, by simp [withLocked]⟩
    · rintro e he es rfl a h1 h2
      have hov : e.range.overlaps range := (mem_meeting.mp he).2
      have hcov : covering [e.withLocked locked] a = some (e.withLocked locked) :=
        (covering_eq_some (chained_singleton _)).mpr ⟨by simp, h1, h2⟩
      rw [view, hcov, if_pos hov]
      rfl
    · intro e he hside a h1 h2
      simp only [lo_eq, hi_eq] at hside
      rw [if_neg (by simp only [overlaps]; omega)]
  rw [pages_eq hholds, hview, lookup, hL.lookup_eq, view]
  rcases covering L a with _ | e <;> rfl

/-- **Locking** sets the flag on every page of every entry that overlaps the range, and changes
nothing else; it fails if the range is not fully mapped. -/
theorem set_locked_tags_whole_entries {alloc : Allocators} {x : RecipeIndex} (h : x.WellFormed)
    (hpub : alloc.publish = true) (range : UserRange) (locked : Bool) :
    (x.FullyMapped range → (∃ commit, (x.setLocked alloc range locked).2 = .ok commit) ∧
      (x.setLocked alloc range locked).1.WellFormed ∧
      ∀ a, (x.setLocked alloc range locked).1.pages a = (x.lookup a).map fun e =>
        if e.range.overlaps range then (e.meaningAt a).withLocked locked else e.meaningAt a) ∧
    (¬ x.FullyMapped range → x.setLocked alloc range locked = (x, .error .missingMapping)) := by
  refine ⟨fun hmap => pages_setLocked h hmap locked hpub, fun hmap => ?_⟩
  obtain ⟨L, hL⟩ := h
  simp [setLocked, rewriteWith, RecipeTree.rewriteLocked, rangeIsFullyMapped_eq_false hL hmap]

theorem set_locked_tags_file_pages :
    (((single (filePages 0)).setLocked granting secondPage true).1.pages
      (17 * userPageSize)).map (fun m => m.flags.locked) = some true := by
  have htag := (set_locked_tags_whole_entries (x := single (filePages 0)) ⟨_, holds_single _⟩
    (show granting.publish = true from rfl) secondPage true).1 (fullyMapped_secondPage 0)
  rw [htag.2.2]
  decide +kernel

/-- Locking the second page of a mapping also locks the first, which is not in the range. -/
theorem set_locked_reaches_out_of_range :
    ∃ (x : RecipeIndex) (a : ℕ), x.WellFormed ∧ x.FullyMapped secondPage ∧
      ¬ secondPage.containsAddr a ∧ (x.pages a).map (fun m => m.flags.locked) = some false ∧
      ((x.setLocked granting secondPage true).1.pages a).map (fun m => m.flags.locked) =
        some true := by
  refine ⟨single (filePages 0), 16 * userPageSize, ⟨_, holds_single _⟩,
    fullyMapped_secondPage 0, by decide, by decide +kernel, ?_⟩
  rw [(pages_setLocked ⟨_, holds_single _⟩ (fullyMapped_secondPage 0) true rfl).2.2]
  decide +kernel

end RecipeIndex

end TxKernel.Vm
