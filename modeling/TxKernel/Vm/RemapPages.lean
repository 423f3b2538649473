import TxKernel.Vm.Remap

/-!
The page map after a move: a copy of the source pages and an unmap of the source, with the tail of a
longer destination continuing the last page.
-/

namespace TxKernel.Vm

open TxKernel.Spans List VmEntry Option RecipeTree

/-! ### The page map after a move -/

/-- What an entry would mean `k` bytes after `x`, also past its end. -/
def VmEntry.onward (e : VmEntry) (x k : ℕ) : PageMeaning := e.meaningAt (x + k)

def VmEntry.onwardFrom (c : ℕ) (e : VmEntry) (x k : ℕ) : PageMeaning :=
  (e.meaningAt (x + k)).cutAt c (x + k)

lemma parts_of_moves {zone : ℕ → Bool} {source old new : UserRange} {heap heap' : PrivateHeap}
    {L moved : List VmEntry} (hs : source.start = old.start)
    (h : Threaded (Moves zone source old new) heap
      (meeting L source.start source.stop) heap' moved) :
    Parts source old new (onwardFrom old.start) onward L moved := by
  refine h.pieces.imp ?_
  rintro e he es ⟨h1, h2, hm⟩
  obtain ⟨m, rfl, hp⟩ := hm.movedPart hs
  refine ⟨(mem_meeting.mp he).2, m, rfl, hp.start_eq, hp.stop_eq, fun i hi _ => ?_⟩
  funext k
  have := hp.meaningAt (i + k) (by omega)
  simpa [onward, onwardFrom, Nat.add_assoc] using this

lemma view_onward {l : List VmEntry} {x : ℕ} :
    view meaningAt l x = (view onward l x).map fun f => f 0 := by
  simp [view, onward, Function.comp_def]

lemma view_onwardFrom {l : List VmEntry} {c x : ℕ} :
    PageMap.cutAt (view meaningAt l) c x = (view (onwardFrom c) l x).map fun f => f 0 := by
  simp [PageMap.cutAt, view, onwardFrom, Function.comp_def]

/-- Wherever a move cuts the entry, there is a file offset. -/
def VmEntry.MoveFits (e : VmEntry) (old new : UserRange) : Prop :=
  e.FitsAt old.start ∧ e.FitsAt (old.start + min old.len new.len) ∧ e.FitsAt old.stop ∧
    e.FitsAt new.stop

namespace RecipeTree

variable {zone : ℕ → Bool} {heap : PrivateHeap} {t : RecipeTree} {L : List VmEntry}
  {old new : UserRange} {destination : MapPlacement} {err : VmMapError}

variable {st : PrivateHeap × List VmEntry} {e : VmEntry}

lemma pushMoved_error {source : UserRange} (his : IsSource source old new)
    (h : pushMoved zone source old new st e = .error err) :
    ¬ e.MoveFits old new ∨ ∃ n, zone n = false := by
  have hsl := source.start_add_len
  have hs := his.start_eq
  have hlen := his.len_eq
  unfold pushMoved at h
  split at h
  · cases h
  rename_i overlap hov
  split at h
  · rename_i err' herr
    cases h
    rcases rebasedEntryForMove_error hov hs (by omega) herr with ⟨-, b, hb, hno⟩ | ⟨_, -, -, hz⟩
    · rw [mem_singleton] at hb
      refine .inl fun hfit => hno ⟨fun _ => ?_, ?_⟩
      · rw [hb, hs]; exact hfit.1
      · rw [hb, ← hsl, hlen, hs]; exact hfit.2.1
    · exact .inr hz
  · cases h

lemma pushKept_error (h : pushKept zone old new st e = .error err) :
    ¬ e.MoveFits old new ∨ ∃ n, zone n = false := by
  unfold pushKept at h
  split at h
  · rename_i err' herr
    cases h
    obtain herr | ⟨st1, h1, herr⟩ := bind_error herr
    · obtain ⟨b, hb, st2, hst⟩ := error_of_foldlM herr
      rw [mem_singleton] at hb
      rcases removeRange_error hst with ⟨-, c, hc, hno⟩ | ⟨_, -, -, hz⟩
      · rw [mem_singleton] at hc
        exact .inl fun hfit => hno ⟨fun hp => (by cases hp), by rw [hc, hb]; exact hfit.2.2.1⟩
      · exact .inr hz
    -- the second range fails on a piece that the first one left
    obtain ⟨st2, h1, h2⟩ := bind_ok h1
    cases h2
    obtain ⟨es1, hrem, hes1⟩ := removeRange_ok h1
    obtain ⟨b, hb, st3, hst⟩ := error_of_foldlM herr
    rw [hes1] at hb
    obtain ⟨start, stop, hle, hp⟩ := hrem.pieceOf hb
    have hin := hrem.piecesOf.inside b hb
    rcases removeRange_error hst with ⟨-, c, hc, hno⟩ | ⟨_, -, -, hz⟩
    · rw [mem_singleton] at hc
      subst hc
      refine .inl fun hfit => hno ⟨fun hp => (by cases hp), fun h3 h4 => ?_⟩
      have hstart := hp.start_eq
      simp only [lo_eq, hi_eq] at hin
      exact (hp.offsetFits_iff hle (by omega)).mpr (hfit.2.2.2 (by omega) (by omega))
    · exact .inr hz
  · cases h

lemma Holds.rewriteRemapDisjoint_error (h : Holds t L) (happ : ¬ old.overlaps new)
    (hallowed : MoveAllowed L old new destination)
    (hr : t.rewriteRemapDisjoint zone heap old new destination = .error err) :
    (∃ e ∈ L, ¬ e.MoveFits old new) ∨ ∃ n, zone n = false := by
  obtain ⟨source, hsource, his⟩ := exists_source old new
  have hmap : (!t.rangeIsFullyMapped old) = false := by
    simpa using (h.rangeIsFullyMapped_iff old).mpr hallowed.1
  unfold rewriteRemapDisjoint at hr
  rw [if_neg happ, hmap, h.validateDestination_eq, if_pos hallowed.2, hsource] at hr
  obtain hr | ⟨_, -, hr⟩ := bind_error hr
  · cases hr
  obtain hr | ⟨_, hs, hr⟩ := bind_error hr
  · cases hr
  cases hs
  rw [h.visit] at hr
  obtain hr | ⟨⟨heap1, moved⟩, hmoved, hr⟩ := bind_error hr
  · obtain ⟨e, he, st, hst⟩ := error_of_foldlM hr
    exact (pushMoved_error his hst).imp_left fun hno => ⟨e, (mem_meeting.mp he).1, hno⟩
  obtain hr | ⟨grown, -, hr⟩ := bind_error hr
  · obtain ⟨ms, hms, hms'⟩ := threaded_of_foldlM Prod.fst Prod.snd
      (fun st a ha st' hst => pushMoved_ok ha hst) hmoved
    subst hms'
    obtain ⟨grown, hg⟩ := growMoved_isOk (parts_of_moves his.start_eq hms) his h.chained hallowed.1
    rw [hg] at hr
    cases hr
  obtain hr | ⟨⟨heap2, kept⟩, -, hr⟩ := bind_error hr
  · obtain ⟨e, he, st, hst⟩ := error_of_foldlM hr
    rw [show t.valuesVec = L from h.index.valuesVec_eq] at he
    exact (pushKept_error hst).imp_left fun hno => ⟨e, he, hno⟩
  · cases hr

end RecipeTree

namespace RecipeIndex

variable {x : RecipeIndex} {L : List VmEntry} {zone : ℕ → Bool} {old new : UserRange}
  {destination : MapPlacement}

/-- The source is mapped, the destination free where that is asked for, and every cut has a file
offset. -/
structure MoveReady (x : RecipeIndex) (old new : UserRange) (destination : MapPlacement) :
    Prop where
  mapped : x.FullyMapped old
  free : destination = .requireFree → ∀ e ∈ x.entries, ¬ e.range.overlaps new
  fits : ∀ e ∈ x.entries, e.MoveFits old new

/-- The pages of `x` after a move of `old` to `new`. -/
structure MovesPages (x y : RecipeIndex) (old new : UserRange) : Prop where
  moved : ∀ i, i < old.len → i < new.len →
    y.pages (new.start + i) = x.pages.cutAt old.start (old.start + i)
  continued : ∀ i, old.len ≤ i → i < new.len →
    y.pages (new.start + i) = (x.lookup (old.stop - 1)).map fun e =>
      (e.meaningAt (old.start + i)).cutAt old.start (old.start + i)
  unmapped : ∀ a, old.containsAddr a → y.pages a = none
  kept : ∀ a, ¬ old.containsAddr a → ¬ new.containsAddr a →
    y.pages a = (x.pages.cutAt old.stop).cutAt new.stop a

lemma fullyMapped_iff (hL : x.current.Holds L) {range : UserRange} :
    x.FullyMapped range ↔ ∀ a, range.containsAddr a → (covering L a).isSome := by
  rw [← rangeIsFullyMapped_iff hL, hL.rangeIsFullyMapped_iff]

section

variable {source : UserRange} {heap heap1 : PrivateHeap} {moved grown kept : List VmEntry}
  {r : RecipeRewrite}

lemma movesPages_of_moved (hL : x.current.Holds L) (happ : ¬ old.overlaps new)
    (hmap : ∀ a, old.containsAddr a → (covering L a).isSome)
    (h : RecipeTree.Moved zone L source old new heap heap1 moved grown kept r) :
    (⟨r.tree, r.heap⟩ : RecipeIndex).WellFormed ∧ MovesPages x ⟨r.tree, r.heap⟩ old new := by
  have hparts := parts_of_moves h.isSource.start_eq h.moves
  obtain ⟨hgrown, hinside, hsame, hbeyond⟩ := growMoved_ok hparts h.isSource hL.chained
    hmap (fun m range hr y _ => funext fun k => m.meaningAt_withRange (by omega)) h.grows
  obtain ⟨hkept, hkview⟩ := kept_avoids hL.chained h.keeps
  obtain ⟨L', hL', hperm⟩ := holds_moved hL.chained h.keeps hgrown hinside
  rw [← h.tree] at hL'
  have hview : ∀ a, view meaningAt L' a =
      (view meaningAt kept a).or (view meaningAt grown a) :=
    fun a => view_perm_append hL'.chained hkept hgrown hperm a
  have hknone : ∀ a, old.containsAddr a ∨ new.containsAddr a →
      view meaningAt kept a = none := fun a ha => by
    rw [view, kept_covering hL.chained h.keeps ha, map_none]
  have hgnone : ∀ a, ¬ new.containsAddr a → view meaningAt grown a = none := fun a ha => by
    rw [view, covering_eq_none.mpr, map_none]
    intro m hm hma
    have := hinside m hm
    simp only [lo_eq, hi_eq] at hma
    exact ha ⟨by omega, by omega⟩
  have hnl := new.start_add_len
  have hy : (⟨r.tree, r.heap⟩ : RecipeIndex).pages = view meaningAt L' := pages_eq hL'
  refine ⟨⟨L', hL'⟩, ?_, ?_, ?_, ?_⟩
  · intro i h1 h2
    rw [hy, hview, hknone _ (.inr ⟨by omega, by omega⟩), none_or, view_onward,
      hsame i h1 h2, ← view_onwardFrom, pages_eq hL]
  · intro i h1 h2
    obtain ⟨e, last, range, he, hpart, hr, hv⟩ := hbeyond i h1 h2
    rw [hy, hview, hknone _ (.inr ⟨by omega, by omega⟩), none_or, view_onward, hv, lookup,
      hL.lookup_eq, he, map_some, map_some]
    -- read the last part on from the last page of the source
    have hcov := ((covering_eq_some hL.chained).mp he).2
    have hol := old.start_add_len
    have hpos := old.len_pos
    have hsl := source.start_add_len
    have hs := h.isSource.start_eq
    have hlen := h.isSource.len_eq
    simp only [lo_eq, hi_eq] at hcov
    have hon := congrFun (hpart.view_eq (old.len - 1) (by omega) (by omega)) (i - (old.len - 1))
    simp only [onward, onwardFrom, Nat.add_assoc, Nat.add_zero] at hon ⊢
    rw [last.meaningAt_withRange (y := new.start + i) (by omega)]
    have hi : old.len - 1 + (i - (old.len - 1)) = i := by omega
    rw [hi] at hon
    rw [hon]
  · intro a ha
    have hno : ¬ new.containsAddr a := fun hn => happ ⟨by omega, by omega⟩
    rw [hy, hview, hknone a (.inl ha), hgnone a hno, or_none]
  · intro a h1 h2
    rw [hy, hview, hgnone a h2, or_none, hkview, pages_eq hL, PageMap.cutAt, PageMap.cutAt]
    rcases view meaningAt L a with _ | m
    · rfl
    · rw [bind_some, cutMeaning, if_neg h1, bind_some, cutMeaning, if_neg h2, map_some, map_some]

lemma fits_of_moved (happ : ¬ old.overlaps new)
    (h : RecipeTree.Moved zone L source old new heap heap1 moved grown kept r) :
    ∀ e ∈ L, e.MoveFits old new := by
  have hsl := source.start_add_len
  have hs := h.isSource.start_eq
  have hlen := h.isSource.len_eq
  intro e he
  have hsource : e.FitsAt source.start ∧ e.FitsAt source.stop := by
    by_cases hm : e ∈ meeting L source.start source.stop
    · obtain ⟨es, ⟨h1, h2, hmove⟩, -⟩ := h.moves.pieces.exists_pieces hm
      exact ⟨hmove.cutsFit.1 rfl, hmove.cutsFit.2⟩
    have hno : ¬ (e.range.start < source.stop ∧ source.start < e.range.stop) := fun hc =>
      hm (mem_meeting.mpr ⟨he, hc⟩)
    exact ⟨fun h1 h2 => by omega, fun h1 h2 => by omega⟩
  rw [hs] at hsource
  obtain ⟨es, ⟨h1, h2, hkeep⟩, -⟩ := h.keeps.pieces.exists_pieces he
  refine ⟨hsource.1, ?_, hkeep.fitsAt happ hsource.1⟩
  rw [← hlen, ← hs, hsl]
  exact hsource.2

end

lemma remapDisjoint_isOk (hL : x.current.Holds L) (happ : ¬ old.overlaps new)
    (h : x.MoveReady old new destination) (hz : ∀ n, zone n = true) :
    ∃ r, x.current.rewriteRemapDisjoint zone x.heap old new destination = .ok r := by
  obtain ⟨hmapped, hfree, hfits⟩ := h
  rw [entries_eq hL] at hfree hfits
  rcases hr : x.current.rewriteRemapDisjoint zone x.heap old new destination with err | r
  · rcases hL.rewriteRemapDisjoint_error happ ⟨(fullyMapped_iff hL).mp hmapped, hfree⟩ hr with
      ⟨e, he, hno⟩ | ⟨n, hn⟩
    · exact absurd (hfits e he) hno
    · simp [hz n] at hn
  · exact ⟨r, rfl⟩

/-- **Moving a range** to one that does not overlap it moves the source page by page, continues its
last page through a longer destination and keeps all other pages, but that the vdso pages of a
mapping are counted from where it is cut. It succeeds exactly when the source is mapped, the
destination is free if that is asked for, and every cut has a file offset, memory permitting. -/
theorem remap_disjoint_moves_pages {x : RecipeIndex} (h : x.WellFormed) {old new : UserRange}
    (happ : ¬ old.overlaps new) (destination : MapPlacement) (zone : ℕ → Bool) :
    (∀ r, x.current.rewriteRemapDisjoint zone x.heap old new destination = .ok r →
      x.MoveReady old new destination ∧ (⟨r.tree, r.heap⟩ : RecipeIndex).WellFormed ∧
        MovesPages x ⟨r.tree, r.heap⟩ old new) ∧
    ((∀ n, zone n = true) → x.MoveReady old new destination →
      ∃ r, x.current.rewriteRemapDisjoint zone x.heap old new destination = .ok r) := by
  obtain ⟨L, hL⟩ := h
  refine ⟨fun r hr => ?_, fun hz hready => remapDisjoint_isOk hL happ hready hz⟩
  obtain ⟨-, ⟨hmap, hfree⟩, source, heap1, moved, grown, kept, hmoved⟩ :=
    hL.rewriteRemapDisjoint_ok hr
  refine ⟨⟨(fullyMapped_iff hL).mpr hmap, ?_, ?_⟩, movesPages_of_moved hL happ hmap hmoved⟩
  · rw [entries_eq hL]; exact hfree
  · rw [entries_eq hL]; exact fits_of_moved happ hmoved

def freePages : UserRange := .pages 40 2 (by decide)

lemma moveReady_secondPage {offset : UInt64} (h : offset.toNat + 2 * userPageSize < 2 ^ 64) :
    (single (filePages offset)).MoveReady secondPage freePages .requireFree := by
  refine ⟨fullyMapped_secondPage offset, fun _ e he => ?_, fun e he => ?_⟩
  all_goals rw [entries_eq (holds_single _), mem_singleton] at he
  · subst he
    show ¬ (UserRange.pages 16 2 (by decide)).overlaps freePages
    decide
  have hoff : ∀ a, e.FitsAt a := by
    rintro a - ha o ho
    rw [he] at ho ha ⊢
    cases ho
    simp only [filePages, VmEntry.new, UserRange.pages, userPageSize] at *
    omega
  exact ⟨hoff _, hoff _, hoff _, hoff _⟩

theorem remap_second_page_of_file :
    ∃ r, (single (filePages 0)).current.rewriteRemapDisjoint (fun _ => true)
        (single (filePages 0)).heap secondPage freePages .requireFree = .ok r ∧
      MovesPages (single (filePages 0)) ⟨r.tree, r.heap⟩ secondPage freePages := by
  have hmove := remap_disjoint_moves_pages (x := single (filePages 0)) ⟨_, holds_single _⟩
    (show ¬ secondPage.overlaps freePages by decide) .requireFree fun _ => true
  obtain ⟨r, hr⟩ := hmove.2 (fun _ => rfl) (moveReady_secondPage (by decide))
  exact ⟨r, hr, (hmove.1 r hr).2.2⟩

/-- The source is mapped and the destination free, but the moving page would start at file offset
`2 ^ 64`. -/
theorem remap_overflows_on_mapped_pages :
    ∃ x : RecipeIndex, x.WellFormed ∧ x.FullyMapped secondPage ∧
      (∀ e ∈ x.entries, ¬ e.range.overlaps freePages) ∧ ¬ secondPage.overlaps freePages ∧
      ∀ r, x.current.rewriteRemapDisjoint (fun _ => true) x.heap secondPage freePages
        .requireFree ≠ .ok r := by
  refine ⟨single (filePages 0xfffffffffffff000), ⟨_, holds_single _⟩, fullyMapped_secondPage _,
    by decide +kernel, by decide, fun r hr => ?_⟩
  have herr : (single (filePages 0xfffffffffffff000)).current.rewriteRemapDisjoint (fun _ => true)
      (single (filePages 0xfffffffffffff000)).heap secondPage freePages .requireFree =
        .error .backingOffsetOverflow := by rfl
  rw [herr] at hr
  cases hr

end RecipeIndex

end TxKernel.Vm
