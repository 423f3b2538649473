import TxKernel.Vm.PageMeaning
import TxKernel.Vm.PrivateCarry

/-!
What the pages mean once a new mapping was merged with its neighbours. Neighbours without a backing
of their own become one, with the frames of the left one behind all pages.
-/

namespace TxKernel.Vm

open TxKernel.Spans List Option VmEntry RecipeTree UserRange RecipeIndex PageMap

section

variable {heap : PrivateHeap} {left right j m n q : VmEntry} {L eaten rest : List VmEntry} {x : ℕ}

/-- What `tryMergeAdjacentEntries` asks of two entries. -/
structure Mergeable (heap : PrivateHeap) (left right : VmEntry) : Prop where
  adjacent : left.range.stop = right.range.start
  prot : left.prot = right.prot
  flags : left.flags = right.flags
  backing : left.hasContiguousBackingWith right = true
  tag : left.ufdRegistration = right.ufdRegistration
  empty : ∀ s, right.owners.priv = some s → heap.isEmpty s = true

/-- The same frame of the kernel stands behind every page of both entries, or none does. -/
def VmEntry.SameFrame (e other : VmEntry) : Prop :=
  e.owners.special = other.owners.special ∧ other.owners.special ≠ some .vdsoText

instance (e other : VmEntry) : Decidable (e.SameFrame other) := by unfold SameFrame; infer_instance

lemma mergedPrivate_isSome {l r : Option ℕ} :
    (mergedPrivate heap l r).isSome ↔ ∀ s, r = some s → heap.isEmpty s = true := by
  rcases l with _ | l <;> rcases r with _ | r <;> simp [mergedPrivate]

lemma Mergeable.exists_tryMerge (h : Mergeable heap left right) :
    ∃ j, tryMergeAdjacentEntries heap left right = .ok (some j) := by
  obtain ⟨_ | j, ho⟩ := TxKernel.Vm.exists_tryMerge heap left right
  · obtain ⟨priv, hpriv⟩ := isSome_iff_exists.mp (mergedPrivate_isSome.mpr h.empty)
    rw [tryMergeAdjacentEntries, if_neg (by
      simp [h.adjacent, h.prot, h.flags, h.backing, h.tag]), hpriv] at ho
    dsimp only at ho
    split at ho <;> cases ho
  · exact ⟨j, ho⟩

section

variable (h : tryMergeAdjacentEntries heap left right = .ok (some j))

include h

lemma fields_of_tryMerge :
    (j.prot = left.prot ∧ j.flags = left.flags ∧ j.ufdRegistration = left.ufdRegistration) ∧
      j.owners.special = left.owners.special ∧ j.backing = left.backing ∧
      ∀ o, left.backing = .page o → j.owners.page = left.owners.page := by
  unfold tryMergeAdjacentEntries at h
  split_ifs at h
  · cases h
  split at h
  · cases h
  split at h
  · cases h
  cases h
  unfold asVmBacking
  rcases hs : left.owners.special with _ | s
  · simp only
    split <;> rename_i hb <;> simp_all [VmEntry.new, withUfdRegistration, withPrivate]
  · have hb := left.special_backing (by rw [hs]; rfl)
    simp [hb, VmEntry.new, withUfdRegistration, withPrivate]

lemma meaningAt_of_tryMerge (x : ℕ) : j.meaningAt x = left.meaningAt x := by
  obtain ⟨⟨h1, h2, h3⟩, h4, h5, h6⟩ := fields_of_tryMerge h
  have hstart := (tryMergeAdjacentEntries_ok h).2.1
  simp only [meaningAt, backingAt, h1, h2, h3, h4, h5, hstart]
  split <;> simp_all

lemma mergeable_of_tryMerge : Mergeable heap left right := by
  obtain ⟨hadj, -, -, hpriv⟩ := tryMergeAdjacentEntries_ok h
  unfold tryMergeAdjacentEntries at h
  split_ifs at h with hno
  · cases h
  push Not at hno
  obtain ⟨-, hprot, hflags, hcont, hufd⟩ := hno
  exact ⟨hadj, hprot, hflags, by simpa using hcont, hufd,
    mergedPrivate_isSome.mp (by rw [hpriv]; rfl)⟩

lemma mergeable_iff_of_tryMerge : Mergeable heap j n ↔ Mergeable heap right n := by
  obtain ⟨⟨h1, h2, h3⟩, -, h5, h6⟩ := fields_of_tryMerge h
  obtain ⟨-, hstart, hstop, -⟩ := tryMergeAdjacentEntries_ok h
  have hm := mergeable_of_tryMerge h
  have hback : j.hasContiguousBackingWith n = right.hasContiguousBackingWith n := by
    have hc := hm.backing
    unfold hasContiguousBackingWith at hc ⊢
    rw [h5]
    split at hc
    · rename_i hl hr
      rw [hl, hr]
      cases n.backing <;> rfl
    · rename_i hl hr
      rw [hl, hr]
      cases n.backing <;> rfl
    · rename_i o o' hl hr
      rw [decide_eq_true_eq, checkedAdd_eq_some] at hc
      rw [hl, hr, h6 o hl, hc.1]
      -- the offset at the end of the merged entry is the one at the end of the right entry
      have hend (p : UInt64) : checkedAdd o j.range.len = some p ↔
          checkedAdd o' right.range.len = some p := by
        have hadj := hm.adjacent
        have hlt := left.range.start_lt_stop
        have hlt' := right.range.start_lt_stop
        have ho := hc.2
        simp only [checkedAdd_eq_some, len, hstart, hstop] at ho ⊢
        omega
      cases n.backing <;> simp only [hend]
    · cases hc
  constructor
  · rintro ⟨k1, k2, k3, k4, k5, k6⟩
    exact ⟨hstop ▸ k1, hm.prot ▸ h1 ▸ k2, hm.flags ▸ h2 ▸ k3, hback ▸ k4, hm.tag ▸ h3 ▸ k5, k6⟩
  · rintro ⟨k1, k2, k3, k4, k5, k6⟩
    exact ⟨hstop.trans k1, (h1.trans hm.prot).trans k2, (h2.trans hm.flags).trans k3,
      hback.trans k4, (h3.trans hm.tag).trans k5, k6⟩

end

/-- The right one changes its meaning unless the same frame of the kernel stands behind every page
of both. -/
lemma Mergeable.meaningAt_eq_iff (h : Mergeable heap left right) (hx : right.range.containsAddr x) :
    left.meaningAt x = right.meaningAt x ↔ left.SameFrame right := by
  have hadj := h.adjacent
  have hlt := left.range.start_lt_stop
  have hcont := h.backing
  have hdiv : (x - left.range.start) / userPageSize ≠ (x - right.range.start) / userPageSize := by
    have h1 := left.range.start_aligned
    have h2 := right.range.start_aligned
    unfold userPageSize at *
    omega
  unfold SameFrame
  simp only [meaningAt, h.prot, h.flags, h.tag, PageMeaning.mk.injEq, true_and, backingAt]
  unfold hasContiguousBackingWith at hcont
  rcases left.owners.special with _ | _ | _ <;> rcases right.owners.special with _ | _ | _ <;>
    rcases hl : left.backing with _ | _ | o <;> rcases hr : right.backing with _ | _ | o' <;>
    simp_all
  rw [checkedAdd_eq_some] at hcont
  unfold len at hcont
  omega

/-- The entry `j` stands for `q` and the neighbours `eaten`, and its pages have kept their meaning
just when one frame of the kernel stands behind all of them, or none. -/
structure Meant (L : List VmEntry) (q : VmEntry) (eaten : List VmEntry) (j : VmEntry) : Prop where
  covers : ∀ x, j.range.containsAddr x ↔
    (∃ e ∈ eaten, e.range.containsAddr x) ∨ q.range.containsAddr x
  special : (∀ n ∈ eaten, n.SameFrame q) → j.owners.special = q.owners.special
  meaning : (∀ x, j.range.containsAddr x →
      PageMap.insert (view meaningAt L) q x = some (j.meaningAt x)) ↔
    ∀ n ∈ eaten, n.SameFrame q

lemma insert_of_mem (hL : Chained L) (hfree : ∀ e ∈ L, ¬ e.range.overlaps q.range) (hn : n ∈ L)
    (hx : n.range.containsAddr x) :
    PageMap.insert (view meaningAt L) q x = some (n.meaningAt x) := by
  rw [PageMap.insert, if_neg fun hq => hfree n hn ⟨by omega, by omega⟩, view,
    (covering_eq_some hL).mpr ⟨hn, hx⟩, map_some]

lemma meant_nil : Meant L q [] q :=
  ⟨by simp, fun _ => rfl, by simp +contextual [PageMap.insert]⟩

lemma meant_left (hL : Chained L) (hfree : ∀ e ∈ L, ¬ e.range.overlaps q.range) (hn : n ∈ L)
    (h : tryMergeAdjacentEntries heap n q = .ok (some j)) : Meant L q [n] j := by
  have hmeans := meaningAt_of_tryMerge h
  have hm := mergeable_of_tryMerge h
  obtain ⟨hadj, hstart, hstop, -⟩ := tryMergeAdjacentEntries_ok h
  have hlt := n.range.start_lt_stop
  have hlt' := q.range.start_lt_stop
  have hcov : ∀ x, j.range.containsAddr x ↔ n.range.containsAddr x ∨ q.range.containsAddr x :=
    fun x => by simp only [containsAddr]; omega
  refine ⟨by simpa using hcov, fun hall =>
    (fields_of_tryMerge h).2.1.trans (hall n (by simp)).1, ?_⟩
  simp only [mem_singleton, forall_eq, hcov, hmeans]
  constructor
  · intro hall
    have hq : q.range.containsAddr q.range.start := ⟨le_rfl, hlt'⟩
    have := hall _ (.inr hq)
    rw [PageMap.insert, if_pos hq] at this
    exact (hm.meaningAt_eq_iff hq).mp (some.inj this).symm
  · rintro heq x (hx | hx)
    · exact insert_of_mem hL hfree hn hx
    · rw [PageMap.insert, if_pos hx, (hm.meaningAt_eq_iff hx).mpr heq]

lemma Meant.cons (hmeant : Meant L q eaten m) (hL : Chained L)
    (hfree : ∀ e ∈ L, ¬ e.range.overlaps q.range) (hn : n ∈ L)
    (h : tryMergeAdjacentEntries heap m n = .ok (some j)) : Meant L q (n :: eaten) j := by
  have hmeans := meaningAt_of_tryMerge h
  have hm := mergeable_of_tryMerge h
  obtain ⟨hadj, hstart, hstop, -⟩ := tryMergeAdjacentEntries_ok h
  have hlt := m.range.start_lt_stop
  have hlt' := n.range.start_lt_stop
  have hcov : ∀ x, j.range.containsAddr x ↔ n.range.containsAddr x ∨ m.range.containsAddr x :=
    fun x => by simp only [containsAddr]; omega
  refine ⟨fun x => by simp [hcov, hmeant.covers, Or.comm, or_left_comm], fun hall => ?_, ?_⟩
  · rw [(fields_of_tryMerge h).2.1]
    exact hmeant.special fun a ha => hall a (mem_cons_of_mem n ha)
  simp only [forall_mem_cons, hcov, hmeans, or_imp, forall_and, hmeant.meaning]
  refine and_congr_left fun heaten => ?_
  have hsame : n.SameFrame q ↔ m.SameFrame n := by
    unfold SameFrame
    rw [← hmeant.special heaten, eq_comm]
    exact and_congr_right fun heq => by rw [heq]
  rw [hsame]
  constructor
  · intro hall
    have hx : n.range.containsAddr n.range.start := ⟨le_rfl, hlt'⟩
    have := hall _ hx
    rw [insert_of_mem hL hfree hn hx] at this
    exact (hm.meaningAt_eq_iff hx).mp (some.inj this).symm
  · intro heq x hx
    rw [insert_of_mem hL hfree hn hx, (hm.meaningAt_eq_iff hx).mpr heq]

lemma eq_of_adjacent {a b : VmEntry} (hL : Chained L) (ha : a ∈ L) (hb : b ∈ L)
    (h : a.range.stop = b.range.stop ∨ a.range.start = b.range.start) : a = b := by
  have h1 := a.range.start_lt_stop
  have h2 := b.range.start_lt_stop
  rcases h with h | h
  · exact hL.eq_of_cover ha hb (x := a.range.stop - 1) ⟨by rw [lo_eq]; omega, by rw [hi_eq]; omega⟩
      ⟨by rw [lo_eq]; omega, by rw [hi_eq]; omega⟩
  · exact hL.eq_of_cover ha hb (x := a.range.start) ⟨le_rfl, h1⟩ ⟨h.ge, by rw [hi_eq]; omega⟩

/-- What a new mapping swallows are the neighbours it can be merged with. -/
lemma exists_swallowed (heap : PrivateHeap) {t : RecipeTree} (hL : t.Holds L)
    (hfree : ∀ e ∈ L, ¬ e.range.overlaps q.range) :
    ∃ st delta, t.insertCoalescingAdjacent heap q = .ok (st.tree.insertEntry st.merged, delta) ∧
      Merging (fun es m => Meant L q es m ∧
        ∀ n ∈ L, n ∈ es ↔ Mergeable heap n q ∨ Mergeable heap q n) L st :=
  exists_insertCoalescing heap hL hfree
    (P := fun es m => Meant L q es m ∧ (∀ n ∈ L, n ∈ es ↔ Mergeable heap n q) ∧
      ∀ n, Mergeable heap m n ↔ Mergeable heap q n)
    (fun hno => ⟨meant_nil, fun n hn => by
      simp only [not_mem_nil, false_iff]
      exact fun hm => hm.exists_tryMerge.elim (hno n hn), fun _ => Iff.rfl⟩)
    (fun n hn j hj => by
      have hm := mergeable_of_tryMerge hj
      refine ⟨meant_left hL.chained hfree hn hj, fun n' hn' => ?_, fun _ =>
        mergeable_iff_of_tryMerge hj⟩
      rw [mem_singleton]
      exact ⟨fun he => he ▸ hm, fun hm' => eq_of_adjacent hL.chained hn' hn
        (.inl (hm'.adjacent.trans hm.adjacent.symm))⟩)
    (fun es m ⟨hmeant, hes, hm⟩ hno => ⟨hmeant, fun n hn => by
      rw [hes n hn, iff_self_or, ← hm]
      exact fun hc => absurd hc.exists_tryMerge (not_exists.mpr (hno n hn))⟩)
    (fun es m ⟨hmeant, hes, hm⟩ n hn j hj => by
      have hqn := (hm n).mp (mergeable_of_tryMerge hj)
      refine ⟨hmeant.cons hL.chained hfree hn hj, fun n' hn' => ?_⟩
      rw [mem_cons, hes n' hn', or_comm]
      refine or_congr_right ⟨fun he => he ▸ hqn, fun hm' => ?_⟩
      exact eq_of_adjacent hL.chained hn' hn (.inr (hm'.adjacent.symm.trans hqn.adjacent)))
    fun es m hm n hn => (hm.1.covers _).mpr (.inl ⟨n, hn, le_rfl, n.range.start_lt_stop⟩)

lemma view_of_not_swallowed (hL : Chained L) (hrest : Chained rest) (hperm : (eaten ++ rest).Perm L)
    (hx : ¬ ∃ e ∈ eaten, e.range.containsAddr x) : view meaningAt rest x = view meaningAt L x := by
  unfold view
  congr 1
  rcases hc : covering L x with _ | e
  · exact covering_eq_none.mpr fun e he =>
      covering_eq_none.mp hc e (hperm.mem_iff.mp (mem_append_right eaten he))
  obtain ⟨he, hex⟩ := (covering_eq_some hL).mp hc
  exact (covering_eq_some hrest).mpr
    ⟨(mem_append.mp (hperm.mem_iff.mpr he)).resolve_left fun hn => hx ⟨e, hn, hex⟩, hex⟩

/-- **Coalescing.** After a new mapping on free pages every page means what it meant before or what
the mapping says, just when each neighbour that it can be merged with has the same one frame of the
kernel behind its pages, or none. -/
theorem coalescing_preserves_meaning_iff (heap : PrivateHeap) {x : RecipeIndex}
    (h : x.WellFormed) {q : VmEntry} (hfree : ∀ e ∈ x.entries, ¬ e.range.overlaps q.range) :
    ∃ tree delta, x.current.insertCoalescingAdjacent heap q = .ok (tree, delta) ∧
      (RecipeIndex.mk tree heap).WellFormed ∧
      ((RecipeIndex.mk tree heap).pages = x.pages.insert q ↔
        ∀ n ∈ x.entries, Mergeable heap n q ∨ Mergeable heap q n → n.SameFrame q) := by
  obtain ⟨L, hL⟩ := h
  rw [entries_eq hL] at hfree ⊢
  obtain ⟨⟨tree, j, _, _⟩, delta, hins, eaten, rest, hholds, hperm, hmeant, heaten⟩ :=
    exists_swallowed heap hL hfree
  have hapart := free_of_covers hL.chained hperm hfree hmeant.covers
  have hnew := hholds.insertEntry hapart
  refine ⟨_, delta, hins, ⟨_, hnew⟩, ?_⟩
  rw [pages_eq (x := ⟨tree.insertEntry j, heap⟩) hnew, pages_eq hL]
  have hout : ∀ a, ¬ j.range.containsAddr a →
      view meaningAt rest a = PageMap.insert (view meaningAt L) q a := by
    intro a ha
    rw [hmeant.covers, not_or] at ha
    rw [PageMap.insert, if_neg ha.2, view_of_not_swallowed hL.chained hholds.chained hperm ha.1]
  have hcond : (∀ n ∈ L, Mergeable heap n q ∨ Mergeable heap q n → n.SameFrame q) ↔
      ∀ n ∈ eaten, n.SameFrame q :=
    ⟨fun hall n hn =>
      have hnL := hperm.mem_iff.mp (mem_append_left rest hn)
      hall n hnL ((heaten n hnL).mp hn),
    fun hall n hn hm => hall n ((heaten n hn).mpr hm)⟩
  rw [hcond, ← hmeant.meaning, funext_iff]
  refine forall_congr' fun a => ?_
  rw [view_splice_one hholds.chained hapart]
  split_ifs with ha
  · exact ⟨fun h _ => h.symm, fun h => (h ha).symm⟩
  · exact iff_of_true (hout a ha) fun h => absurd h ha

end

namespace RecipeIndex

def kernelPages (range : UserRange) (s : VmSpecialBacking) : VmEntry :=
  .new range ⟨true, false, false⟩ ⟨true, false, false⟩ (.special s)

def vvarPage : VmEntry := kernelPages (.pages 16 1 (by decide)) .vvar

/-- A second vvar page mapped right after the first is merged with it, and reads as it should. -/
theorem vvar_after_vvar :
    ∃ tree delta, (single vvarPage).current.insertCoalescingAdjacent .empty
        (kernelPages secondPage .vvar) = .ok (tree, delta) ∧
      (RecipeIndex.mk tree .empty).pages =
        (single vvarPage).pages.insert (kernelPages secondPage .vvar) := by
  obtain ⟨tree, delta, hins, -, hiff⟩ := coalescing_preserves_meaning_iff .empty
    (x := single vvarPage) ⟨_, holds_single _⟩ (q := kernelPages secondPage .vvar) (by decide)
  refine ⟨tree, delta, hins, hiff.mpr fun n hn _ => ?_⟩
  rw [entries_eq (holds_single _), mem_singleton] at hn
  rw [hn]
  decide

/-- The text of the vdso mapped right after the vvar page reads as the vvar page. -/
theorem vdso_after_vvar_reads_vvar :
    let text := kernelPages secondPage .vdsoText
    (single vvarPage).WellFormed ∧
      (∀ e ∈ (single vvarPage).entries, ¬ e.range.overlaps text.range) ∧
      ∃ tree delta, (single vvarPage).current.insertCoalescingAdjacent .empty text =
          .ok (tree, delta) ∧
        ((mk tree .empty).pages text.range.start).map PageMeaning.backing =
          some (.special .vvar 0) :=
  ⟨⟨_, holds_single _⟩, by decide, _, _, rfl, by decide +kernel⟩

end RecipeIndex

end TxKernel.Vm
