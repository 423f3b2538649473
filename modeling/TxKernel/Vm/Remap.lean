import TxKernel.Vm.PageMeaning

/-!
Moving a range of mapped pages to a range that does not overlap it: the moving part is cut out of
every entry and rebased, the last part grows if the destination is longer, and a new tree is built
from what is kept and what has moved.
-/

namespace TxKernel.Vm

open TxKernel.Spans List Option UserRange VmEntry VmEntryRewrite

/-! ### Checks and rebuilding -/

namespace RecipeTree

variable {t : RecipeTree} {L : List VmEntry}

lemma Holds.validateInsertFree_eq (h : Holds t L) (range : UserRange) :
    t.validateInsertFree range =
      if ∀ e ∈ L, ¬ e.range.overlaps range then .ok () else .error .alreadyMapped := by
  have hpred : t.predecessorRef range.start = lastUpTo L range.start :=
    h.index.predecessorRef_eq _
  have hsucc : t.successorRef range.start = firstFrom L range.start := h.index.successorRef_eq _
  unfold validateInsertFree
  rw [hpred, hsucc]
  by_cases hfree : ∀ e ∈ L, ¬ e.range.overlaps range
  · rw [if_pos hfree, if_neg]
    have h1 : ∀ e, lastUpTo L range.start = some e → e ∈ L := fun e he =>
      mem_of_mem_filter (mem_of_getLast? he)
    have h2 : ∀ e, firstFrom L range.start = some e → e ∈ L := fun e he =>
      mem_of_find?_eq_some he
    rcases hl : lastUpTo L range.start with _ | a <;>
      rcases hf : firstFrom L range.start with _ | b <;>
      simp only [any_none, any_some, Bool.or_false, Bool.false_or, Bool.or_eq_true,
        decide_eq_true_eq, Bool.false_eq_true, not_false_eq_true, not_or]
    · exact hfree b (h2 b hf)
    · exact hfree a (h1 a hl)
    · exact ⟨hfree a (h1 a hl), hfree b (h2 b hf)⟩
  rw [if_neg hfree, if_pos]
  push Not at hfree
  obtain ⟨e, he, hov⟩ := hfree
  rw [Bool.or_eq_true]
  rcases Nat.lt_or_ge range.start e.range.start with hlt | hge
  · -- the first entry from the start on begins no later than `e`
    refine .inr ?_
    obtain ⟨z, hz⟩ := isSome_iff_exists.mp
      (find?_isSome.mpr ⟨e, he, by simpa using hlt.le⟩ : (firstFrom L range.start).isSome)
    obtain ⟨hzp, A, B, hAB, hA⟩ := find?_eq_some_iff_append.mp hz
    simp only [lo_eq, decide_eq_true_eq] at hzp
    have hze : z.range.start ≤ e.range.start := by
      rw [hAB, mem_append, mem_cons] at he
      rcases he with he | rfl | he
      · have := hA e he
        simp only [lo_eq, Bool.not_eq_true', decide_eq_false_iff_not] at this
        omega
      · exact le_rfl
      · exact ((hAB ▸ h.chained).around.2 e he).le
    have := z.range.start_lt_stop
    rw [show firstFrom L range.start = some z from hz, any_some, decide_eq_true_eq]
    exact ⟨by omega, by omega⟩
  · have hcov : covering L range.start = some e :=
      (covering_eq_some h.chained).mpr ⟨he, hge, by rw [hi_eq]; omega⟩
    rw [h.chained.covering_eq_lastUpTo, filter_eq_some_iff] at hcov
    rw [hcov.1, any_some, decide_eq_true_eq]
    exact .inl hov

end RecipeTree

lemma pairwise_not_overlaps {L : List VmEntry} (h : Chained L) :
    L.Pairwise fun a b => ¬ a.range.overlaps b.range :=
  h.imp fun {a b} hab hov => by
    simp only [hi_eq, lo_eq] at hab
    omega

namespace RecipeTree

variable {t : RecipeTree} {L : List VmEntry}

lemma Holds.foldl_insertEntry (h : Holds t L) {es : List VmEntry}
    (hes : es.Pairwise fun a b => ¬ a.range.overlaps b.range)
    (hfree : ∀ a ∈ L, ∀ b ∈ es, ¬ a.range.overlaps b.range) :
    ∃ L', Holds (es.foldl RecipeTree.insertEntry t) L' ∧ L'.Perm (L ++ es) := by
  induction es generalizing t L with
  | nil => exact ⟨L, h, by simp⟩
  | cons e es ih =>
    rw [pairwise_cons] at hes
    have hins := h.insertEntry fun a ha => hfree a ha e (by simp)
    have hperm : (splice L e.range.start e.range.stop [e]).Perm (L ++ [e]) :=
      h.chained.perm_splice_one fun a ha => hfree a ha e (by simp)
    obtain ⟨L', h1, h2⟩ := ih hins hes.2 fun a ha b hb => by
      rcases mem_append.mp (hperm.mem_iff.mp ha) with ha | ha
      · exact hfree a ha b (by simp [hb])
      rw [mem_singleton] at ha
      exact ha ▸ hes.1 b hb
    refine ⟨L', h1, h2.trans ?_⟩
    simpa using hperm.append_right es

end RecipeTree

/-! ### Taking ranges out of an entry -/

/-- What is left of an entry when `range` is taken out of it, whether or not they overlap. -/
def Removes (zone : ℕ → Bool) (range : UserRange) (heap : PrivateHeap) (e : VmEntry)
    (heap' : PrivateHeap) (es : List VmEntry) : Prop :=
  (¬ e.range.overlaps range ∧ heap' = heap ∧ es = [e]) ∨ Cuts zone range none heap e heap' es

/-- What is left of an entry when the two ranges of a move are taken out of it. -/
def Keeps (zone : ℕ → Bool) (old new : UserRange) (heap : PrivateHeap) (e : VmEntry)
    (heap' : PrivateHeap) (es : List VmEntry) : Prop :=
  ∃ heap1 es1, Removes zone old heap e heap1 es1 ∧ Threaded (Removes zone new) heap1 es1 heap' es

section

variable {zone : ℕ → Bool} {range old new : UserRange} {heap heap' : PrivateHeap} {e : VmEntry}
  {es : List VmEntry}

section

variable (h : Removes zone range heap e heap' es)
include h

lemma Removes.piecesOf : PiecesOf e es := by
  rcases h with ⟨-, -, rfl⟩ | h
  · exact ⟨chained_singleton e, by simp⟩
  · exact h.piecesOf

lemma Removes.view_meaningAt {x : ℕ} (h1 : e.range.start ≤ x) (h2 : x < e.range.stop) :
    view meaningAt es x = cutMeaning range none x (e.meaningAt x) := by
  rcases h with ⟨hno, -, rfl⟩ | h
  · have hcov : covering [e] x = some e :=
      (covering_eq_some (chained_singleton e)).mpr ⟨by simp, h1, h2⟩
    rw [view, hcov, cutMeaning_of_apart hno ⟨h1, h2⟩, map_some]
  · exact h.view_meaningAt h1 h2

lemma Removes.fitsAt : e.FitsAt range.stop := by
  rcases h with ⟨hno, -, -⟩ | h
  · intro h1 h2
    have := range.start_lt_stop
    exact absurd ⟨by omega, by omega⟩ hno
  · exact h.cutsFit.2

end

variable {st st' : PrivateHeap × List VmEntry} {heap1 heap2 : PrivateHeap}

lemma removeRange_ok (h : e.removeRange zone range st = .ok st') :
    ∃ es, Removes zone range st.1 e st'.1 es ∧ st'.2 = st.2 ++ es := by
  unfold removeRange at h
  by_cases hov : e.range.overlaps range
  · obtain ⟨overlap, hint, -⟩ := intersection_of_overlaps hov
    rw [hint] at h
    dsimp only at h
    split at h
    · cases h
    rename_i heap1 w hw
    cases h
    exact ⟨_, .inr ⟨overlap, w, hint, hw, rfl⟩, by rw [← RecipeTree.unmap_intoEntries hw]⟩
  · rw [intersection_of_apart hov] at h
    cases h
    exact ⟨[e], .inl ⟨hov, rfl, rfl⟩, rfl⟩

lemma removeRange_error {err : VmMapError} (h : e.removeRange zone range st = .error err) :
    CutFailure zone [e] range none err := by
  unfold removeRange at h
  split at h
  · cases h
  rename_i overlap hint
  split at h
  · rename_i err' herr
    cases h
    exact cutFailure_of (by simp) hint herr rfl fun _ => rfl
  · cases h

lemma removeRemapCoveredRanges_ok
    (h : e.removeRemapCoveredRanges zone heap old new = .ok (heap', es)) :
    Keeps zone old new heap e heap' es := by
  obtain ⟨st, h1, h2⟩ := bind_ok h
  obtain ⟨st', h1, h3⟩ := bind_ok h1
  cases h3
  obtain ⟨es1, hrem, hes1⟩ := removeRange_ok h1
  obtain ⟨es2, hth, hes2⟩ := threaded_of_foldlM Prod.fst Prod.snd
    (fun st a _ st' hst => removeRange_ok hst) h2
  simp only [nil_append] at hes1 hes2
  rw [hes1] at hth
  exact ⟨st.1, es1, hrem, hes2 ▸ hth⟩

section

variable (h : Keeps zone old new heap e heap' es)
include h

lemma Keeps.pieces : ∃ es1, PiecesOf e es1 ∧ (∃ heap1, Removes zone old heap e heap1 es1) ∧
    Pieces (fun b bs => PiecesOf b bs ∧ ∃ heap1 heap2, Removes zone new heap1 b heap2 bs)
      es1 es := by
  obtain ⟨heap1, es1, hrem, hth⟩ := h
  exact ⟨es1, hrem.piecesOf, ⟨heap1, hrem⟩,
    hth.pieces.imp fun _ _ _ ⟨h1, h2, hr⟩ => ⟨hr.piecesOf, h1, h2, hr⟩⟩

lemma Keeps.piecesOf : PiecesOf e es := by
  obtain ⟨es1, hp, -, hpieces⟩ := h.pieces
  refine ⟨hpieces.chained hp.chained fun _ _ h => h.1, fun b hb => ?_⟩
  obtain ⟨a, ha, as, hPa, hba⟩ := hpieces.exists_of_mem hb
  have h1 := hp.inside a ha
  have h2 := hPa.1.inside b hba
  omega

lemma Keeps.view_meaningAt {x : ℕ} (h1 : e.range.start ≤ x) (h2 : x < e.range.stop) :
    view meaningAt es x =
      (cutMeaning old none x (e.meaningAt x)).bind (cutMeaning new none x) := by
  obtain ⟨es1, hp, ⟨heap1, hrem⟩, hpieces⟩ := h.pieces
  rw [← hrem.view_meaningAt h1 h2]
  refine view_pieces hp.chained hpieces (fun _ _ h => h.1) ?_ x
  rintro b - bs ⟨-, heap2, heap3, hb⟩ y hy1 hy2
  exact hb.view_meaningAt hy1 hy2

end

end

variable {e : VmEntry}

lemma PieceOf.offsetFits_iff {b : VmEntry} {start stop a : ℕ} {prot : Prot}
    (h : PieceOf e start stop prot b) (hs : e.range.start ≤ start) (ha : start ≤ a) :
    b.OffsetFits a ↔ e.OffsetFits a := by
  unfold VmEntry.OffsetFits
  rw [h.start_eq]
  obtain ⟨h1, h2⟩ | ⟨h1, h2⟩ | ⟨o, o', h1, h2, ho⟩ := VmEntryBacking.atRangeOffset_ok h.backing_eq
  · simp [h1, h2]
  · simp [h1, h2]
  simp only [h1, h2, VmEntryBacking.page.injEq, forall_eq']
  omega

variable {zone : ℕ → Bool} {range : UserRange} {es : List VmEntry}

lemma Removes.pieceOf {heap heap' : PrivateHeap} {b : VmEntry}
    (h : Removes zone range heap e heap' es) (hb : b ∈ es) :
    ∃ start stop, e.range.start ≤ start ∧ PieceOf e start stop e.prot b := by
  rcases h with ⟨-, -, rfl⟩ | h
  · rw [mem_singleton] at hb
    subst hb
    exact ⟨_, _, le_rfl, rfl, rfl, rfl, rfl, rfl, rfl, rfl,
      by rw [Nat.sub_self]; exact b.backing.atRangeOffset_zero⟩
  obtain ⟨overlap, w, -, -, hc, rfl⟩ := h.cutAt
  have htarget : w.target = none := hc.target
  have hin := hc.inside
  have hlt := overlap.start_lt_stop
  simp only [intoEntries, htarget, toList_none, append_nil, mem_append] at hb
  rcases hb with hb | hb
  · exact ⟨_, _, le_rfl, (hc.before_toList b hb).2⟩
  · exact ⟨_, _, by omega, (hc.after_toList b hb).2⟩

lemma Keeps.fitsAt {old new : UserRange} {heap heap' : PrivateHeap}
    (h : Keeps zone old new heap e heap' es) (happ : ¬ old.overlaps new)
    (hstart : e.FitsAt old.start) :
    e.FitsAt old.stop ∧ e.FitsAt new.stop := by
  obtain ⟨es1, hp, ⟨heap1, hrem⟩, hpieces⟩ := h.pieces
  refine ⟨hrem.fitsAt, fun h1 h2 => ?_⟩
  have hlt' := new.start_lt_stop
  have hside : new.stop ≤ old.start ∨ old.stop ≤ new.start := by
    simp only [overlaps] at happ; omega
  rcases hrem with ⟨-, -, rfl⟩ | hcut
  · obtain ⟨as, hPa, -⟩ := hpieces.exists_pieces (mem_singleton_self e)
    obtain ⟨-, heap2, heap3, hr⟩ := hPa
    exact hr.fitsAt h1 h2
  obtain ⟨overlap, w, hs, ht, hc, rfl⟩ := hcut.cutAt
  have hov := overlap.start_lt_stop
  have hpiece : ∀ b ∈ w.intoEntries, ∀ start stop, PieceOf e start stop e.prot b →
      e.range.start ≤ start → start < new.stop → new.stop < stop → e.OffsetFits new.stop := by
    intro b hb start stop hpb hs1 hs2 hs3
    obtain ⟨as, ⟨-, heap2, heap3, hr⟩, -⟩ := hpieces.exists_pieces hb
    have hbs := hpb.start_eq
    have hbt := hpb.stop_eq
    exact (hpb.offsetFits_iff hs1 hs2.le).mp (hr.fitsAt (by omega) (by omega))
  -- the end of `new` lies in the piece before `old`, at its start, or in the piece behind it
  rcases hside with hle | hle
  · rcases Nat.lt_or_ge new.stop old.start with hlt2 | hge
    · have hb := hc.before
      rw [if_pos (by omega)] at hb
      obtain ⟨b, hb, hpb⟩ := hb
      exact hpiece b (by simp [intoEntries, hb]) _ _ hpb le_rfl h1 (by omega)
    · have heq : new.stop = old.start := by omega
      exact heq ▸ hstart (by omega) (by omega)
  · have ha := hc.after
    rw [if_pos (by omega)] at ha
    obtain ⟨b, hb, hpb⟩ := ha
    exact hpiece b (by simp [intoEntries, hb]) _ _ hpb (by omega) (by omega) h2

/-! ### Moving parts of entries -/

/-- The part of an entry in `source`, moved as `old` moves to `new`. -/
def Moves (zone : ℕ → Bool) (source old new : UserRange) (heap : PrivateHeap) (e : VmEntry)
    (heap' : PrivateHeap) (es : List VmEntry) : Prop :=
  ∃ overlap m, e.range.intersection source = some overlap ∧
    e.rebasedEntryForMove zone heap overlap old new = .ok (heap', m) ∧ es = [m]

/-- `m` is the part of `e` in `source`, moved as `old` moves to `new`. -/
structure MovedPart (source old new : UserRange) (e m : VmEntry) : Prop where
  start_eq : m.range.start = new.start + (max e.range.start source.start - old.start)
  stop_eq : m.range.stop = new.start + (min e.range.stop source.stop - old.start)
  meaningAt : ∀ i, max e.range.start source.start ≤ old.start + i →
    m.meaningAt (new.start + i) = (e.meaningAt (old.start + i)).cutAt old.start (old.start + i)

lemma VmEntry.meaningAt_withRange (e : VmEntry) {x y : ℕ}
    (h : x - range.start = y - e.range.start) :
    (e.withRangePreservingOwners range).meaningAt x = e.meaningAt y := by
  simp only [meaningAt, backingAt, withRangePreservingOwners, h]

section

variable {zone : ℕ → Bool} {source overlap old new : UserRange} {heap heap' : PrivateHeap}
  {e m : VmEntry} {es : List VmEntry}

lemma rebasedEntryForMove_ok
    (h : e.rebasedEntryForMove zone heap overlap old new = .ok (heap', m)) :
    ∃ w b target, e.splitForProtect zone heap overlap e.prot = .ok (heap', w) ∧
      w.target = some b ∧ m = b.withRangePreservingOwners target ∧
      target.start = new.start + (overlap.start - old.start) ∧
      target.stop = new.start + (overlap.start - old.start) + overlap.len := by
  unfold rebasedEntryForMove at h
  split at h
  · cases h
  rename_i heap1 w hw
  split at h
  · cases h
  rename_i b hb
  dsimp only at h
  split at h
  · cases h
  rename_i target htarget
  cases h
  obtain ⟨h1, h2⟩ := ends_of_newAligned htarget
  exact ⟨w, b, target, hw, hb, rfl, h1, h2⟩

lemma rebasedEntryForMove_error {err : VmMapError}
    (hov : e.range.intersection source = some overlap) (hs : source.start = old.start)
    (hlen : source.len ≤ new.len)
    (h : e.rebasedEntryForMove zone heap overlap old new = .error err) :
    CutFailure zone [e] source (some e.prot) err := by
  obtain ⟨-, h1, h2⟩ := intersection_eq_some hov
  unfold rebasedEntryForMove at h
  split at h
  · rename_i err' herr
    cases h
    exact cutFailure_of (by simp) hov herr rfl fun _ => rfl
  rename_i heap1 w hw
  obtain ⟨b, hb, -⟩ := (cutAt_of_splitRewrite hw).target
  rw [hb] at h
  dsimp only at h
  have hlt := new.stop_lt
  have hnl := new.start_add_len
  have hsl := source.start_add_len
  have hol := overlap.start_add_len
  obtain ⟨target, htarget, -⟩ := newAligned_eq_ok
    (new.start + (overlap.start - old.start)) overlap.len overlap.len_pos (by
      have := new.start_aligned
      have := overlap.start_aligned
      have := old.start_aligned
      unfold userPageSize at *
      omega) overlap.len_aligned (by omega)
  rw [htarget] at h
  cases h

lemma Moves.movedPart (h : Moves zone source old new heap e heap' es)
    (hs : source.start = old.start) : ∃ m, es = [m] ∧ MovedPart source old new e m := by
  obtain ⟨overlap, m, hov, hm, rfl⟩ := h
  obtain ⟨-, h1, h2⟩ := intersection_eq_some hov
  obtain ⟨w, b, target, hw, hb, rfl, h3, h4⟩ := rebasedEntryForMove_ok hm
  obtain ⟨b', hb', hp⟩ := (cutAt_of_splitRewrite hw).target
  obtain rfl : b' = b := by rw [hb] at hb'; exact (some.inj hb').symm
  have hol := overlap.start_add_len
  refine ⟨_, rfl, ?_, ?_, fun i hi => ?_⟩
  · show target.start = _
    omega
  · show target.stop = _
    omega
  have hbs := hp.start_eq
  rw [b'.meaningAt_withRange (y := old.start + i) (by omega),
    hp.meaningAt (by omega) (by omega), h1, hs]
  rcases Nat.le_total old.start e.range.start with hle | hle
  · rw [max_eq_left hle, e.meaningAt_cutAt _ le_rfl, e.meaningAt_cutAt _ hle]
    rfl
  · rw [max_eq_right hle]
    rfl

lemma Moves.cutsFit (h : Moves zone source old new heap e heap' es) :
    e.CutsFit source (some e.prot) := by
  obtain ⟨overlap, m, hov, hm, -⟩ := h
  obtain ⟨w, b, target, hw, -⟩ := rebasedEntryForMove_ok hm
  exact Cuts.cutsFit ⟨overlap, w, hov, hw, rfl⟩

end

/-! ### The moved list -/

section

variable {β : Type} {source old new : UserRange} {f g : VmEntry → ℕ → β} {L moved : List VmEntry}

/-- Where the part of `e` in `source` goes, and that it says there what `e` said. -/
structure PartAt (source old new : UserRange) (f g : VmEntry → ℕ → β) (e m : VmEntry) : Prop where
  start_eq : m.range.start = new.start + (max e.range.start source.start - old.start)
  stop_eq : m.range.stop = new.start + (min e.range.stop source.stop - old.start)
  view_eq : ∀ i, max e.range.start source.start ≤ old.start + i →
    old.start + i < min e.range.stop source.stop → g m (new.start + i) = f e (old.start + i)

abbrev Parts (source old new : UserRange) (f g : VmEntry → ℕ → β) (L moved : List VmEntry) : Prop :=
  Pieces (fun e es => e.range.overlaps source ∧ ∃ m, es = [m] ∧ PartAt source old new f g e m)
    (meeting L source.start source.stop) moved

lemma Parts.inside (h : Parts source old new f g L moved) (hs : source.start = old.start) :
    ∀ m ∈ moved, new.start ≤ m.range.start ∧ m.range.stop ≤ new.start + source.len := by
  intro m hm
  obtain ⟨e, -, es, ⟨hov, m', rfl, hp⟩, hme⟩ := h.exists_of_mem hm
  rw [mem_singleton] at hme
  subst hme
  have h1 := hp.start_eq
  have h2 := hp.stop_eq
  have h3 := source.start_add_len
  omega

section

variable (h : Parts source old new f g L moved) (hL : Chained L) (hs : source.start = old.start)
  {i : ℕ}
include h hL hs

lemma Parts.chained : Chained moved := by
  refine Pieces.chained_of h (hL.filter _) ?_ ?_
  · rintro e es ⟨-, m, rfl, -⟩
    exact chained_singleton m
  rintro a as b bs ⟨ha, m, rfl, hma⟩ ⟨hb, n, rfl, hnb⟩ hab c hc d hd
  rw [mem_singleton] at hc hd
  subst hc hd
  have h1 := hma.stop_eq
  have h2 := hnb.start_eq
  simp only [hi_eq, lo_eq] at hab ⊢
  omega

lemma Parts.covering (hi : i < source.len) {e : VmEntry}
    (he : covering L (old.start + i) = some e) :
    ∃ m, covering moved (new.start + i) = some m ∧ PartAt source old new f g e m := by
  obtain ⟨hel, hex⟩ := (covering_eq_some hL).mp he
  simp only [lo_eq, hi_eq] at hex
  have hsl := source.start_add_len
  have hmem : e ∈ meeting L source.start source.stop :=
    mem_meeting.mpr ⟨hel, by simp only [lo_eq, hi_eq]; omega⟩
  obtain ⟨as, ⟨-, m, rfl, hp⟩, has⟩ := h.exists_pieces hmem
  refine ⟨m, (covering_eq_some (h.chained hL hs)).mpr ⟨has m (by simp), ?_⟩, hp⟩
  have h1 := hp.start_eq
  have h2 := hp.stop_eq
  simp only [lo_eq, hi_eq]
  omega

/-- **Moved pages** say at the destination what they said at the source. -/
lemma Parts.view_eq (hi : i < source.len) (hmap : (Spans.covering L (old.start + i)).isSome) :
    view g moved (new.start + i) = view f L (old.start + i) := by
  obtain ⟨e, he⟩ := isSome_iff_exists.mp hmap
  obtain ⟨m, hm, hp⟩ := h.covering hL hs hi he
  have hex := ((covering_eq_some hL).mp he).2
  have hsl := source.start_add_len
  simp only [lo_eq, hi_eq] at hex
  rw [view, view, hm, he, map_some, map_some, hp.view_eq i (by omega) (by omega)]

end

lemma Parts.last (h : Parts source old new f g L moved) (hL : Chained L)
    (hs : source.start = old.start) {e : VmEntry}
    (he : Spans.covering L (source.stop - 1) = some e) :
    ∃ init last, moved = init ++ [last] ∧ PartAt source old new f g e last ∧
      last.range.stop = new.start + source.len := by
  have hsl := source.start_add_len
  have hpos := source.len_pos
  have hlast : source.stop - 1 = old.start + (source.len - 1) := by omega
  obtain ⟨m, hm, hp⟩ := h.covering hL hs (i := source.len - 1) (by omega) (hlast ▸ he)
  obtain ⟨hmm, hmx⟩ := (covering_eq_some (h.chained hL hs)).mp hm
  have hstop : m.range.stop = new.start + source.len := by
    have := ((covering_eq_some hL).mp he).2
    have h2 := hp.stop_eq
    simp only [lo_eq, hi_eq] at this
    omega
  obtain ⟨init, last, rfl⟩ := eq_nil_or_concat moved |>.resolve_left (ne_nil_of_mem hmm)
  rw [concat_eq_append] at *
  refine ⟨init, last, rfl, ?_⟩
  -- nothing comes after the part that reaches the end
  rcases mem_append.mp hmm with hin | hin
  · have h1 := (chained_append.mp (h.chained hL hs)).2.2 m hin last (by simp)
    have h2 := (h.inside hs last (by simp)).2
    have h3 := last.range.start_lt_stop
    simp only [hi_eq, lo_eq] at h1
    omega
  · rw [mem_singleton] at hin
    exact hin ▸ ⟨hp, hstop⟩

end

lemma view_grown {β : Type} {g : VmEntry → ℕ → β} {init : List VmEntry} {last z : VmEntry}
    (hch : Chained (init ++ [last])) (hstart : z.range.start = last.range.start)
    (hstop : last.range.stop ≤ z.range.stop)
    (hg : ∀ x, last.range.containsAddr x → g z x = g last x) :
    Chained (init ++ [z]) ∧ ∀ x, view g (init ++ [z]) x =
      if last.range.stop ≤ x ∧ x < z.range.stop then some (g z x)
      else view g (init ++ [last]) x := by
  obtain ⟨hinit, -, hcross⟩ := chained_append.mp hch
  have hch' : Chained (init ++ [z]) := chained_append.mpr
    ⟨hinit, chained_singleton z, fun a ha b hb => by
      rw [mem_singleton] at hb
      have := hcross a ha last (by simp)
      simp only [hi_eq, lo_eq] at this ⊢
      rw [hb, hstart]
      exact this⟩
  refine ⟨hch', fun x => ?_⟩
  by_cases hz : z.range.containsAddr x
  · have hcov : covering (init ++ [z]) x = some z :=
      (covering_eq_some hch').mpr ⟨by simp, hz⟩
    rw [view, hcov, map_some]
    split_ifs with hx
    · rfl
    have hl : last.range.containsAddr x := by
      exact ⟨by omega, by omega⟩
    have hcov' : covering (init ++ [last]) x = some last :=
      (covering_eq_some hch).mpr ⟨by simp, hl⟩
    rw [view, hcov', map_some, hg x hl]
  · have hl : ¬ last.range.containsAddr x := fun hc => hz ⟨by omega, by omega⟩
    have hfind : ∀ c : VmEntry, ¬ c.range.containsAddr x →
        covering (init ++ [c]) x = covering init x := fun c hc => by
      have : covering [c] x = none := covering_eq_none.mpr (by simpa using hc)
      simp only [covering, find?_append] at this ⊢
      rw [this, or_none]
    rw [if_neg (fun hc => hz ⟨by have := last.range.start_lt_stop; omega, hc.2⟩), view, view,
      hfind z hz, hfind last hl]

/-! ### The whole move -/

namespace RecipeTree

variable {zone : ℕ → Bool} {heap : PrivateHeap} {t : RecipeTree} {L : List VmEntry}
  {old new : UserRange} {destination : MapPlacement} {r : RecipeRewrite} {err : VmMapError}
  {e : VmEntry}

lemma pushMoved_ok {source : UserRange} (he : e ∈ meeting L source.start source.stop)
    (h : pushMoved zone source old new st e = .ok st') :
    ∃ es, Moves zone source old new st.1 e st'.1 es ∧ st'.2 = st.2 ++ es := by
  obtain ⟨overlap, hov⟩ := exists_intersection he
  unfold pushMoved at h
  rw [hov] at h
  dsimp only at h
  split at h
  · cases h
  rename_i heap1 m hm
  cases h
  exact ⟨[m], ⟨overlap, m, hov, hm, rfl⟩, rfl⟩

lemma pushKept_ok (h : pushKept zone old new st e = .ok st') :
    ∃ es, Keeps zone old new st.1 e st'.1 es ∧ st'.2 = st.2 ++ es := by
  unfold pushKept at h
  split at h
  · cases h
  rename_i heap1 es hes
  cases h
  exact ⟨es, removeRemapCoveredRanges_ok hes, rfl⟩

/-- The source of the move: as much of `old` as fits into `new`. -/
structure IsSource (source old new : UserRange) : Prop where
  start_eq : source.start = old.start
  len_eq : source.len = min old.len new.len

lemma exists_source (old new : UserRange) :
    ∃ source, newAligned old.start (min old.len new.len) = .ok source ∧
      IsSource source old new := by
  have h1 := old.len_aligned
  have h2 := new.len_aligned
  have h3 := old.len_pos
  have h4 := new.len_pos
  have h5 := old.start_add_len
  have h6 := old.stop_lt
  obtain ⟨source, hs, hstart, hstop⟩ := newAligned_eq_ok old.start
    (min old.len new.len) (by omega) old.start_aligned (by unfold userPageSize at *; omega)
    (by omega)
  exact ⟨source, hs, hstart, by have := source.start_add_len; omega⟩

/-- The parts of a successful move. -/
structure Moved (zone : ℕ → Bool) (L : List VmEntry) (source old new : UserRange)
    (heap heap1 : PrivateHeap) (moved grown kept : List VmEntry) (r : RecipeRewrite) : Prop where
  isSource : IsSource source old new
  moves : Threaded (Moves zone source old new) heap (meeting L source.start source.stop) heap1 moved
  grows : growMoved moved old new = .ok grown
  keeps : Threaded (Keeps zone old new) heap1 L r.heap kept
  tree : r.tree = treeFromEntries (kept ++ grown)

def MoveAllowed (L : List VmEntry) (old new : UserRange) (destination : MapPlacement) : Prop :=
  (∀ a, old.containsAddr a → (covering L a).isSome) ∧
    (destination = .requireFree → ∀ e ∈ L, ¬ e.range.overlaps new)

lemma Holds.validateDestination_eq (h : Holds t L) :
    t.validateDestination new destination =
      if destination = .requireFree → ∀ e ∈ L, ¬ e.range.overlaps new then .ok ()
      else .error .alreadyMapped := by
  cases destination with
  | requireFree => simp [validateDestination, h.validateInsertFree_eq]
  | fixedReplace => simp [validateDestination]

lemma Holds.rewriteRemapDisjoint_ok (h : Holds t L)
    (hr : t.rewriteRemapDisjoint zone heap old new destination = .ok r) :
    ¬ old.overlaps new ∧ MoveAllowed L old new destination ∧
      ∃ source heap1 moved grown kept,
        Moved zone L source old new heap heap1 moved grown kept r := by
  obtain ⟨source, hsource, his⟩ := exists_source old new
  unfold rewriteRemapDisjoint at hr
  split_ifs at hr with hov hmap
  have hmap' : t.rangeIsFullyMapped old = true := by simpa using hmap
  obtain ⟨_, hdest, hr⟩ := bind_ok hr
  rw [h.validateDestination_eq] at hdest
  split_ifs at hdest with hfree
  refine ⟨hov, ⟨(h.rangeIsFullyMapped_iff old).mp hmap', hfree⟩, ?_⟩
  rw [hsource] at hr
  obtain ⟨_, hs, hr⟩ := bind_ok hr
  cases hs
  rw [h.visit] at hr
  obtain ⟨⟨heap1, moved⟩, hmoved, hr⟩ := bind_ok hr
  obtain ⟨grown, hgrown, hr⟩ := bind_ok hr
  obtain ⟨⟨heap2, kept⟩, hkept, hr⟩ := bind_ok hr
  cases hr
  rw [show t.valuesVec = L from h.index.valuesVec_eq] at hkept
  obtain ⟨ms, hms, hms'⟩ := threaded_of_foldlM Prod.fst Prod.snd
    (fun st a ha st' hst => pushMoved_ok ha hst) hmoved
  obtain ⟨ks, hks, hks'⟩ := threaded_of_foldlM Prod.fst Prod.snd
    (fun st a _ st' hst => pushKept_ok hst) hkept
  subst hms' hks'
  exact ⟨source, heap1, _, grown, _, his, hms, hgrown, hks, rfl⟩

lemma growMoved_cases {moved grown : List VmEntry} (h : growMoved moved old new = .ok grown) :
    (new.len ≤ old.len ∧ grown = moved) ∨
      (old.len < new.len ∧ ∃ init last expanded, moved = init ++ [last] ∧
        grown = init ++ [last.withRangePreservingOwners expanded] ∧
        expanded.start = last.range.start ∧
        expanded.stop = last.range.stop + (new.len - old.len)) := by
  unfold growMoved at h
  split_ifs at h with hgrow
  · refine .inr ⟨hgrow, ?_⟩
    split at h
    · cases h
    rename_i last hlast
    obtain ⟨init, rfl⟩ := getLast?_eq_some_iff.mp hlast
    split at h
    · cases h
    rename_i expanded hexp
    obtain ⟨h1, h2⟩ := ends_of_newAligned hexp
    have hle := last.range.start_add_len
    unfold entryWithRange at h
    split_ifs at h
    cases h
    exact ⟨init, last, expanded, rfl, by rw [dropLast_concat], h1, by omega⟩
  · cases h
    exact .inl ⟨by omega, rfl⟩

section

variable {β : Type} {f g : VmEntry → ℕ → β} {source : UserRange} {moved : List VmEntry}
  (hparts : Parts source old new f g L moved) (his : IsSource source old new) (hL : Chained L)
  (hmap : ∀ a, old.containsAddr a → (covering L a).isSome)
include hparts his hL hmap

lemma exists_last (hgrow : old.len < new.len) :
    ∃ e last, covering L (old.stop - 1) = some e ∧ moved.getLast? = some last ∧
      PartAt source old new f g e last ∧ last.range.stop = new.start + old.len := by
  have hlen := his.len_eq
  have hold := old.start_add_len
  have hpos := old.len_pos
  have hsrc : source.stop = old.stop := by
    have := source.start_add_len
    have := his.start_eq
    omega
  obtain ⟨e, he⟩ := isSome_iff_exists.mp (hmap (old.stop - 1) ⟨by omega, by omega⟩)
  obtain ⟨init, last, rfl, hpart, hstop⟩ := hparts.last hL his.start_eq (hsrc ▸ he)
  exact ⟨e, last, he, getLast?_concat, hpart, by omega⟩

lemma growMoved_ok {grown : List VmEntry}
    (hg : ∀ (m : VmEntry) (range : UserRange), range.start = m.range.start → ∀ x,
      m.range.containsAddr x → g (m.withRangePreservingOwners range) x = g m x)
    (h : growMoved moved old new = .ok grown) :
    Chained grown ∧ (∀ m ∈ grown, new.start ≤ m.range.start ∧ m.range.stop ≤ new.stop) ∧
      (∀ i, i < old.len → i < new.len → view g grown (new.start + i) = view f L (old.start + i)) ∧
      ∀ i, old.len ≤ i → i < new.len → ∃ e last range, covering L (old.stop - 1) = some e ∧
        PartAt source old new f g e last ∧ range.start = last.range.start ∧
        view g grown (new.start + i) =
          some (g (last.withRangePreservingOwners range) (new.start + i)) := by
  have hch := hparts.chained hL his.start_eq
  have hin := hparts.inside his.start_eq
  have hlen := his.len_eq
  have hnew := new.start_add_len
  have hold := old.start_add_len
  have hview : ∀ i, i < source.len → view g moved (new.start + i) = view f L (old.start + i) :=
    fun i hi => hparts.view_eq hL his.start_eq hi (hmap _ ⟨by omega, by omega⟩)
  rcases growMoved_cases h with ⟨hle, rfl⟩ | ⟨hgrow, init, last, expanded, rfl, rfl, h1, h2⟩
  · refine ⟨hch, fun m hm => ?_, fun i hi hi' => hview i (by omega), fun i h1 h2 => by omega⟩
    have := hin m hm
    omega
  obtain ⟨e, last', he, hlast, hpart, hstop⟩ := exists_last hparts his hL hmap hgrow
  rw [getLast?_concat] at hlast
  cases hlast
  obtain ⟨hch', hview'⟩ := view_grown (z := last.withRangePreservingOwners expanded) hch h1
    (by show last.range.stop ≤ expanded.stop; omega) (hg last expanded h1)
  refine ⟨hch', ?_, ?_, ?_⟩
  · intro m hm
    rcases mem_append.mp hm with hm | hm
    · have := hin m (by simp [hm])
      omega
    rw [mem_singleton] at hm
    have h3 := hin last (by simp)
    rw [hm]
    show new.start ≤ expanded.start ∧ expanded.stop ≤ new.stop
    omega
  · intro i hi _
    rw [hview', if_neg (by omega), hview i (by omega)]
  · intro i hi1 hi2
    refine ⟨e, last, expanded, he, hpart, h1, ?_⟩
    rw [hview', if_pos]
    show last.range.stop ≤ new.start + i ∧ new.start + i < expanded.stop
    omega

lemma growMoved_isOk : ∃ grown, growMoved moved old new = .ok grown := by
  unfold growMoved
  split_ifs with hgrow
  · have hnew := new.start_add_len
    obtain ⟨-, last, -, hlast, -, hstop⟩ := exists_last hparts his hL hmap hgrow
    have hle := last.range.start_add_len
    have h1 := last.range.len_aligned
    have h2 := old.len_aligned
    have h3 := new.len_aligned
    have h4 := new.stop_lt
    obtain ⟨expanded, hexp, h6, h7⟩ := newAligned_eq_ok last.range.start
      (last.range.len + (new.len - old.len)) (by omega) last.range.start_aligned
      (by unfold userPageSize at *; omega) (by omega)
    simp only [hlast, hexp, entryWithRange]
    rw [if_neg (by omega)]
    exact ⟨_, rfl⟩
  · exact ⟨_, rfl⟩

end

section

variable {kept : List VmEntry} (hL : Chained L)
  (h : Threaded (Keeps zone old new) heap1 L heap2 kept)
include hL h

lemma kept_avoids :
    Chained kept ∧ ∀ x, view meaningAt kept x = (view meaningAt L x).bind fun m =>
      (cutMeaning old none x m).bind (cutMeaning new none x) := by
  have hpieces : Pieces (fun e es => PiecesOf e es ∧ ∃ heap heap',
      Keeps zone old new heap e heap' es) L kept :=
    h.pieces.imp fun _ _ _ ⟨h1, h2, hk⟩ => ⟨hk.piecesOf, h1, h2, hk⟩
  refine ⟨hpieces.chained hL fun _ _ h => h.1, ?_⟩
  refine view_pieces hL hpieces (fun _ _ h => h.1) ?_
  rintro e - es ⟨-, h1, h2, hk⟩ x hx1 hx2
  exact hk.view_meaningAt hx1 hx2

lemma kept_covering {x : ℕ} (hx : old.containsAddr x ∨ new.containsAddr x) :
    covering kept x = none := by
  have hview := (kept_avoids hL h).2 x
  have hnone : view meaningAt kept x = none := by
    rw [hview]
    rcases view meaningAt L x with _ | m
    · rfl
    rw [bind_some, cutMeaning, map_none]
    split_ifs with ho
    · rfl
    · rw [bind_some, cutMeaning, if_pos (hx.resolve_left ho), map_none]
  simpa [view] using hnone

end

lemma holds_moved {kept grown : List VmEntry} (hL : Chained L)
    (hkeeps : Threaded (Keeps zone old new) heap1 L heap2 kept) (hgrown : Chained grown)
    (hinside : ∀ m ∈ grown, new.start ≤ m.range.start ∧ m.range.stop ≤ new.stop) :
    ∃ L', Holds (treeFromEntries (kept ++ grown)) L' ∧ L'.Perm (kept ++ grown) := by
  have hkept := (kept_avoids hL hkeeps).1
  refine Holds.foldl_insertEntry holds_new ?_ (by simp)
  refine pairwise_append.mpr ⟨pairwise_not_overlaps hkept, pairwise_not_overlaps hgrown,
    fun a ha b hb hov => ?_⟩
  -- an entry that is kept and overlaps a moved one would hold an address of the destination
  have hb' := hinside b hb
  have h1 := a.range.start_lt_stop
  have h2 := b.range.start_lt_stop
  have hnone := kept_covering hL hkeeps (x := max a.range.start b.range.start)
    (.inr ⟨by omega, by omega⟩)
  exact covering_eq_none.mp hnone a ha (by simp only [lo_eq, hi_eq]; omega)

end RecipeTree

end TxKernel.Vm
