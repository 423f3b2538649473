import TxKernel.Vm.BPlus.Replace

/-!
Replacing a range in the gap in front of an internal node. The new leaves are put beside the
internal node, so a level mixes two depths, and building over such a level cannot mend it.
-/

namespace TxKernel.Vm.BPlusNode

open TxKernel.Spans List Option Edited

/-- All leaves under the node are at depth `d`. -/
inductive AtDepth : ℕ → BPlusNode → Prop
  | leaf (l : BPlusLeaf) : AtDepth 1 (.leaf l)
  | internal {d : ℕ} {seps : List ℕ} {cs : List BPlusNode} {len vmSize height : ℕ}
      (children : ∀ c ∈ cs, AtDepth d c) : AtDepth (d + 1) (.internal seps cs len vmSize height)

/-- No node below is empty. -/
inductive Dense : BPlusNode → Prop
  | leaf {l : BPlusLeaf} (ne : l.entries ≠ []) : Dense (.leaf l)
  | internal {seps : List ℕ} {cs : List BPlusNode} {len vmSize height : ℕ} (ne : cs ≠ [])
      (children : ∀ c ∈ cs, Dense c) : Dense (.internal seps cs len vmSize height)

/-- What building `ns` out of the level `cs`, `s` levels up, can do. -/
structure Rebuilt (s : ℕ) (cs ns : List BPlusNode) : Prop where
  dense : ∀ n ∈ ns, Dense n
  ne : cs ≠ [] → ns ≠ []
  size_le : (valuesAll ns).length ≤ (valuesAll cs).length
  depth : (valuesAll ns).length = (valuesAll cs).length →
    ∀ d, (∀ n ∈ ns, AtDepth (d + s) n) → ∀ c ∈ cs, AtDepth d c

variable {h : ℕ} {n : BPlusNode}

lemma WellShaped.atDepth (hn : WellShaped h n) : AtDepth h n := by
  induction hn with
  | leaf ne => exact .leaf _
  | internal ne fits hcs ih => exact .internal ih

lemma WellShaped.dense (hn : WellShaped h n) : Dense n := by
  induction hn with
  | leaf ne => exact .leaf ne
  | internal ne fits hcs ih => exact .internal ne ih

lemma Dense.values_pos (hn : Dense n) : 0 < n.values.length := by
  induction hn with
  | leaf ne => simpa using length_pos_iff.mpr ne
  | @internal _ cs _ _ _ ne _ ih =>
    obtain ⟨c, cs, rfl⟩ := exists_cons_of_ne_nil ne
    have := ih c (by simp)
    simp
    omega

variable {cs : List BPlusNode}

lemma valuesAll_ne_nil_of_dense (ne : cs ≠ []) (h : ∀ c ∈ cs, Dense c) : valuesAll cs ≠ [] := by
  obtain ⟨c, cs, rfl⟩ := exists_cons_of_ne_nil ne
  simp [length_pos_iff.mp (h c mem_cons_self).values_pos]

lemma not_atDepth_zero : ¬ AtDepth 0 n := by
  rintro ⟨⟩

lemma AtDepth.unique {d d' : ℕ} (h : AtDepth d n) (h' : AtDepth d' n) (hn : Dense n) : d = d' := by
  induction hn generalizing d d' with
  | leaf ne => cases h; cases h'; rfl
  | @internal _ cs _ _ _ ne _ ih =>
    obtain ⟨c, hc⟩ := exists_mem_of_ne_nil _ ne
    cases h with
    | internal h =>
      cases h' with
      | internal h' => rw [ih c hc (h c hc) (h' c hc)]

namespace Rebuilt

variable {s : ℕ} {cs ms ns : List BPlusNode}

lemma refl (h : ∀ c ∈ cs, Dense c) : Rebuilt 0 cs cs :=
  ⟨h, id, le_rfl, fun _ _ hd => hd⟩

lemma trans (h1 : Rebuilt 0 cs ms) (h2 : Rebuilt s ms ns) : Rebuilt s cs ns where
  dense := h2.dense
  ne := h2.ne ∘ h1.ne
  size_le := h2.size_le.trans h1.size_le
  depth heq d hd := by
    have hle1 := h1.size_le
    have hle2 := h2.size_le
    exact h1.depth (by omega) d (h2.depth (by omega) d hd)

lemma append (as bs : List BPlusNode) (ha : ∀ c ∈ as, Dense c) (hb : ∀ c ∈ bs, Dense c)
    (h : Rebuilt 0 cs ns) (hne : cs ≠ []) : Rebuilt 0 (as ++ cs ++ bs) (as ++ ns ++ bs) where
  dense n hn := by
    simp only [mem_append] at hn
    rcases hn with (hn | hn) | hn
    · exact ha n hn
    · exact h.dense n hn
    · exact hb n hn
  ne _ := by simp [h.ne hne]
  size_le := by
    have := h.size_le
    simp only [valuesAll_append, length_append]
    omega
  depth heq d hd := by
    simp only [valuesAll_append, length_append] at heq
    have hmid := h.depth (by omega) d fun n hn => hd n (by simp [hn])
    intro c hc
    simp only [mem_append] at hc
    rcases hc with (hc | hc) | hc
    · exact hd c (by simp [hc])
    · exact hmid c hc
    · exact hd c (by simp [hc])

lemma lost {c : BPlusNode} (h : ∀ c ∈ cs, Dense c) (hc : c ∈ cs) (hlen : 2 ≤ cs.length) :
    Rebuilt 0 cs [c] := by
  have hlt : (valuesAll [c]).length < (valuesAll cs).length := by
    obtain ⟨as, bs, rfl⟩ := append_of_mem hc
    have hother : ∃ x ∈ as ++ bs, Dense x := by
      rcases as with _ | ⟨a, as⟩
      · rcases bs with _ | ⟨b, bs⟩
        · simp at hlen
        · exact ⟨b, by simp, h b (by simp)⟩
      · exact ⟨a, by simp, h a (by simp)⟩
    obtain ⟨x, hx, hxd⟩ := hother
    have hpos := hxd.values_pos
    have hmem : x.values.length ≤ (valuesAll (as ++ bs)).length := by
      obtain ⟨ps, qs, hps⟩ := append_of_mem hx
      rw [hps]
      simp only [valuesAll_append, valuesAll_cons, length_append]
      omega
    simp only [valuesAll_append, valuesAll_cons, valuesAll_nil, length_append, append_nil] at hmem ⊢
    omega
  exact ⟨fun n hn => by rw [mem_singleton.mp hn]; exact h c hc, by simp, hlt.le,
    fun heq => by omega⟩

end Rebuilt

/-! ### Parents -/

variable {height : ℕ}

lemma rebuilt_of_parents {ns : List BPlusNode} (hp : Parents height ns cs)
    (hcs : ∀ c ∈ cs, Dense c) : Rebuilt 1 cs ns := by
  have hsub : ∀ n ∈ ns, ∀ c ∈ n.children, c ∈ cs := fun n hn c hc => by
    rw [← hp.children, mem_flatMap]
    exact ⟨n, hn, hc⟩
  refine ⟨fun n hn => ?_, ?_, by rw [hp.valuesAll_eq], fun _ d hd c hc => ?_⟩
  · obtain ⟨chunk, hne, -, rfl⟩ := hp.made n hn
    exact .internal hne fun c hc => hcs c (hsub _ hn c hc)
  · rintro hne rfl
    exact hne (by simpa using hp.children.symm)
  rw [← hp.children, mem_flatMap] at hc
  obtain ⟨n, hn, hcn⟩ := hc
  have hdn := hd n hn
  obtain ⟨chunk, -, -, rfl⟩ := hp.made n hn
  cases hdn with
  | internal hch => exact hch c hcn

lemma rebuilt_internalChunks {ns : List BPlusNode} (hcs : ∀ c ∈ cs, Dense c)
    (h : internalChunks cs height = some ns) : Rebuilt 1 cs ns := by
  obtain ⟨ns', h1, -, hp⟩ := internalChunks_spec cs height
  obtain rfl : ns' = ns := by rw [h1] at h; exact some.inj h
  exact rebuilt_of_parents hp hcs

/-! ### Repair -/

namespace Repair

variable {ι : Type} {R : Repair ι} {ns : List BPlusNode}

/-- Rebuilding a group of siblings loses entries or keeps its depths. -/
def Tame (R : Repair ι) : Prop :=
  ∀ g xs ns, g ≠ [] → (∀ c ∈ g, Dense c) → R.gather g = .ok xs → R.rebuild xs = some ns →
    Rebuilt 0 g ns

lemma mem_of_gather_error {g : List BPlusNode} (h : R.gather g = .error c) : c ∈ g := by
  induction g with
  | nil => simp [Repair.gather] at h
  | cons a g ih =>
    rw [Repair.gather] at h
    split at h
    · cases h
      simp
    · exact mem_cons_of_mem _ (ih (map_error h))

lemma Tame.loop (hR : R.Tame) (rebalanced rest : List BPlusNode) (h1 : ∀ c ∈ rebalanced, Dense c)
    (h2 : ∀ c ∈ rest, Dense c) (hlen : rest = [] ∨ 2 ≤ rebalanced.length + rest.length)
    (h : R.loop rebalanced rest = some ns) : Rebuilt 0 (rebalanced ++ rest) ns := by
  induction hn : rest.length using Nat.strong_induction_on generalizing rebalanced rest with
  | _ n ih =>
    rcases rest with _ | ⟨c, rest⟩
    · rw [Repair.loop] at h
      cases h
      simpa using Rebuilt.refl h1
    have hT : ∀ d ∈ rebalanced ++ c :: rest, Dense d := fun d hd => by
      rcases mem_append.mp hd with hd | hd
      · exact h1 d hd
      · exact h2 d hd
    have hT2 : 2 ≤ (rebalanced ++ c :: rest).length := by
      rcases hlen with hlen | hlen
      · cases hlen
      · simpa using hlen
    rw [Repair.loop] at h
    split_ifs at h with hkind hfull
    · cases h
      exact Rebuilt.lost hT (by simp) hT2
    · have := ih rest.length (by simp at hn; omega) (rebalanced ++ [c]) rest
        (fun d hd => hT d (by simp at hd ⊢; tauto))
        (fun d hd => h2 d (by simp [hd])) (.inr (by simp at hT2 ⊢; omega)) h rfl
      simpa using this
    have happ := R.group_append rebalanced c rest
    have hrest := R.length_group_rest rebalanced c rest
    have hmem := R.mem_group rebalanced c rest
    generalize R.group rebalanced c rest = g at happ hrest hmem h
    obtain ⟨g1, g2, g3⟩ := g
    simp only at happ hrest hmem h
    rw [← happ] at hT hT2 ⊢
    split at h
    · rename_i child hg
      cases h
      exact Rebuilt.lost hT (by simp [mem_of_gather_error hg]) hT2
    rename_i items hg
    split at h
    · cases h
    rename_i nodes hnodes
    have hne : g2 ≠ [] := by rintro rfl; simp at hmem
    have hmid := hR g2 items nodes hne (fun d hd => hT d (by simp [hd])) hg hnodes
    have hstep := hmid.append g1 g3 (fun d hd => hT d (by simp [hd]))
      (fun d hd => hT d (by simp [hd])) hne
    have hnn := length_pos_iff.mpr (hmid.ne hne)
    refine hstep.trans (ih g3.length (by simp at hn; omega) (g1 ++ nodes) g3
      (fun d hd => hstep.dense d (by simp at hd ⊢; tauto))
      (fun d hd => hT d (by simp [hd])) ?_ h rfl)
    rcases g3 with _ | ⟨a, g3⟩
    · exact .inl rfl
    right
    simp only [length_append, length_cons]
    omega

lemma Tame.rebalance (hR : R.Tame) {cs : List BPlusNode} (hcs : ∀ c ∈ cs, Dense c)
    (h : R.rebalance cs = some ns) : Rebuilt 0 cs ns := by
  unfold Repair.rebalance at h
  split_ifs at h with hlen hany
  · cases h
    exact .refl hcs
  · exact hR.loop [] cs (by simp) hcs (.inr (by simp; omega)) h
  · cases h
    exact .refl hcs

end Repair

variable {g : List BPlusNode}

lemma leafItems_gather {xs : List VmEntry} (h : leafRepair.gather g = .ok xs) :
    xs = valuesAll g ∧ ∀ c ∈ g, ∃ l, c = .leaf l := by
  induction g generalizing xs with
  | nil => cases h; simp
  | cons c g ih =>
    rw [Repair.gather] at h
    cases c with
    | internal => cases h
    | leaf l =>
      obtain ⟨ys, hy, rfl⟩ := map_ok h
      obtain ⟨rfl, hl⟩ := ih hy
      refine ⟨by simp, fun d hd => ?_⟩
      rcases mem_cons.mp hd with rfl | hd
      · exact ⟨l, rfl⟩
      · exact hl d hd

lemma leafRepair_tame : leafRepair.Tame := by
  intro g xs ns hne hg hgather hns
  obtain ⟨rfl, hleaf⟩ := leafItems_gather hgather
  obtain ⟨ns', h1, -, h3, h4⟩ := leafNodesFromEntries_spec (valuesAll g)
  obtain rfl : ns' = ns := by
    have hns' : leafNodesFromEntries (valuesAll g) = some ns := hns
    rw [h1] at hns'
    exact some.inj hns'
  have hne' : ns' ≠ [] := by
    rintro rfl
    exact valuesAll_ne_nil_of_dense hne hg h4.symm
  refine ⟨fun n hn => (h3 n hn).dense, fun _ => hne', by rw [h4], fun _ d hd a ha => ?_⟩
  obtain ⟨n, hn⟩ := exists_mem_of_ne_nil _ hne'
  have hn1 := h3 n hn
  have hnd := hd n hn
  obtain ⟨l, rfl⟩ := hleaf a ha
  obtain rfl : d = 1 := hnd.unique hn1.atDepth hn1.dense
  exact .leaf l

lemma internalItems_gather {xs : List BPlusNode} (h : (internalRepair rebuild).gather g = .ok xs) :
    valuesAll xs = valuesAll g ∧ (g.flatMap children = xs) ∧
      ∀ c ∈ g, ∃ seps len vmSize height, c = .internal seps c.children len vmSize height := by
  induction g generalizing xs with
  | nil => cases h; simp
  | cons c g ih =>
    rw [Repair.gather] at h
    cases c with
    | leaf => cases h
    | internal seps cs len vmSize height =>
      obtain ⟨ys, hy, rfl⟩ := map_ok h
      obtain ⟨h1, rfl, h3⟩ := ih hy
      refine ⟨by simp [h1], by simp [children], fun d hd => ?_⟩
      rcases mem_cons.mp hd with rfl | hd
      · exact ⟨seps, len, vmSize, height, rfl⟩
      · exact h3 d hd

lemma internalRepair_tame
    (hr : ∀ xs ns, (∀ x ∈ xs, Dense x) → rebuild xs = some ns → Rebuilt 1 xs ns) :
    (internalRepair rebuild).Tame := by
  intro g xs ns hne hg hgather hns
  obtain ⟨hval, hflat, hint⟩ := internalItems_gather hgather
  have hmem : ∀ c ∈ g, ∀ x ∈ c.children, x ∈ xs := fun c hc x hx => by
    rw [← hflat, mem_flatMap]
    exact ⟨c, hc, hx⟩
  have hxs : ∀ x ∈ xs, Dense x := fun x hx => by
    rw [← hflat, mem_flatMap] at hx
    obtain ⟨c, hc, hxc⟩ := hx
    have hcd := hg c hc
    obtain ⟨seps, len, vmSize, height, hceq⟩ := hint c hc
    rw [hceq] at hcd
    cases hcd with
    | internal _ hch => exact hch x hxc
  have hb := hr xs ns hxs hns
  have hxne : xs ≠ [] := by
    rintro rfl
    exact valuesAll_ne_nil_of_dense hne hg hval.symm
  refine ⟨hb.dense, fun _ => hb.ne hxne, hval ▸ hb.size_le, fun heq d hd c hc => ?_⟩
  obtain ⟨n, hn⟩ := exists_mem_of_ne_nil _ (hb.ne hxne)
  rcases d with _ | d
  · exact absurd (hd n hn) not_atDepth_zero
  have hdx := hb.depth (hval ▸ heq) d hd
  obtain ⟨seps, len, vmSize, height, hceq⟩ := hint c hc
  rw [hceq]
  exact .internal fun x hx => hdx x (hmem c hc x hx)

/-- **Parents of any level** lose entries or keep its depths. -/
lemma rebuilt_internalNodesFromChildren (height : ℕ) {ns : List BPlusNode} (hcs : ∀ c ∈ cs, Dense c)
    (h : internalNodesFromChildren height cs = some ns) :
    Rebuilt 1 cs ns := by
  induction height generalizing cs ns with
  | zero =>
    rw [internalNodesFromChildren, bind_eq_some_iff] at h
    obtain ⟨ms, h1, h2⟩ := h
    have hm := (internalRepair_tame (by simp)).rebalance hcs h1
    exact hm.trans (rebuilt_internalChunks hm.dense h2)
  | succ height ih =>
    rw [internalNodesFromChildren, bind_eq_some_iff] at h
    obtain ⟨ms, h1, h2⟩ := h
    have hm : Rebuilt 0 cs ms := by
      split_ifs at h1
      · exact leafRepair_tame.rebalance hcs h1
      · exact (internalRepair_tame fun xs ns hxs h => ih hxs h).rebalance hcs h1
    exact hm.trans (rebuilt_internalChunks hm.dense h2)

lemma rebuilt_internalNodesReplacingChildRange {childNodes ns : List BPlusNode} {first last : ℕ}
    (hT : ∀ c ∈ cs.take first ++ childNodes ++ cs.drop (last + 1), Dense c)
    (hne : cs.take first ++ childNodes ++ cs.drop (last + 1) ≠ [])
    (h : internalNodesReplacingChildRange cs height first last childNodes = some ns) :
    Rebuilt 1 (cs.take first ++ childNodes ++ cs.drop (last + 1)) ns := by
  unfold internalNodesReplacingChildRange at h
  dsimp only at h
  split_ifs at h with hc
  · rw [fromReplacedChildRange_eq _ _ _ _ _ hc.2.1] at h
    cases h
    refine ⟨fun n hn => ?_, by simp, by simp [mkInternal], fun _ d hd c hcm => ?_⟩
    · rw [mem_singleton.mp hn]
      exact .internal hne hT
    · cases hd _ (mem_singleton.mpr rfl) with
      | internal hch => exact hch c hcm
  · exact rebuilt_internalNodesFromChildren height hT h

/-! ### The root -/

lemma collapseRoot_depth :
    (collapseRoot n).values = n.values ∧
      ∀ k, AtDepth k (collapseRoot n) → ∃ d, AtDepth d n := by
  induction n using collapseRoot.induct with
  | case1 seps c len vmSize height ih =>
    rw [collapseRoot]
    refine ⟨by simp [ih.1], fun k hk => ?_⟩
    obtain ⟨d, hd⟩ := ih.2 k hk
    exact ⟨d + 1, .internal fun x hx => by rw [mem_singleton.mp hx]; exact hd⟩
  | case2 n hn =>
    rw [collapseRoot.eq_2 n hn]
    exact ⟨rfl, fun k hk => ⟨k, hk⟩⟩

lemma growRoot_depth {fuel : ℕ} {level : List BPlusNode} {root : BPlusNode}
    (hl : ∀ n ∈ level, Dense n)
    (hroot : growRoot internalNodesFromChildren fuel level h = some root) :
    root.values.length ≤ (valuesAll level).length ∧
      (root.values.length = (valuesAll level).length → ∀ k, AtDepth k root →
        ∃ d, ∀ n ∈ level, AtDepth d n) := by
  induction fuel, level, h using growRoot.induct with
  | case1 | case3 => simp [growRoot] at hroot
  | case2 fuel n h =>
    rw [growRoot] at hroot
    cases hroot
    obtain ⟨h1, h2⟩ := collapseRoot_depth (n := n)
    exact ⟨by simp [h1], fun _ k hk => by simpa using h2 k hk⟩
  | case4 fuel n m level h ih =>
    rw [growRoot, bind_eq_some_iff] at hroot
    obtain ⟨next, h1, h2⟩ := hroot
    have hb := rebuilt_internalNodesFromChildren (h + 1) hl h1
    obtain ⟨hle, hdepth⟩ := ih next hb.dense h2
    have hle' := hb.size_le
    refine ⟨hle.trans hle', fun heq k hk => ?_⟩
    obtain ⟨d, hd⟩ := hdepth (by omega) k hk
    obtain ⟨x, hx⟩ := exists_mem_of_ne_nil _ (hb.ne (by simp))
    rcases d with _ | d
    · exact absurd (hd x hx) not_atDepth_zero
    · exact ⟨d, hb.depth (by omega) d hd⟩

/-! ### The gap -/

section

variable {range : UserRange} {h : ℕ} {n : BPlusNode} {rs : List VmEntry} {r : Replaced}

lemma GapBeforeInternal.exists_after (hg : GapBeforeInternal range n) (hn : Dense n) :
    ∃ e ∈ n.values, range.stop ≤ e.range.start := by
  induction hg with
  | here after =>
    obtain ⟨e, he⟩ := exists_mem_of_length_pos hn.values_pos
    exact ⟨e, he, after e (by simpa using he)⟩
  | @child _ A c B _ _ _ before gap ih =>
    cases hn with
    | internal ne hcs =>
      obtain ⟨e, he, hle⟩ := ih (hcs c (by simp))
      exact ⟨e, by simp [he], hle⟩

lemma GapBeforeInternal.after_behind {W : List VmEntry} (hg : GapBeforeInternal range c)
    (hc : Dense c) (hch : Chained (c.values ++ W)) : ∀ e ∈ W, range.stop ≤ e.range.start := by
  intro e he
  obtain ⟨f, hf, hle⟩ := hg.exists_after hc
  have h1 := (chained_append.mp hch).2.2 f hf e he
  have h2 := f.range.start_lt_stop
  simp only [hi_eq, lo_eq] at h1
  omega

lemma GapBeforeInternal.meeting_eq (hg : GapBeforeInternal range n) (hn : Dense n)
    (hch : Chained n.values) : meeting n.values range.start range.stop = [] := by
  have hse := range.start_lt_stop.le
  induction hg with
  | here after => exact (cut_of_right hse (by simpa using after)).2.1
  | @child _ A c B _ _ _ before gap ih =>
    cases hn with
    | internal ne hcs =>
      have hcd := hcs c (by simp)
      rw [values_internal, valuesAll_append, valuesAll_cons] at hch ⊢
      obtain ⟨-, hcB, -⟩ := chained_append.mp hch
      rw [meeting_append, meeting_append, (cut_of_left hse before).2.1,
        ih hcd (chained_append.mp hcB).1, (cut_of_right hse (gap.after_behind hcd hcB)).2.1]
      rfl

lemma GapBeforeInternal.not_before (hg : GapBeforeInternal range n) (hn : WellShaped h n)
    (hch : Chained n.values) : n.beforeRange range = false := by
  by_contra hb
  obtain ⟨e, he, hle⟩ := hg.exists_after hn.dense
  have h1 := (beforeRange_iff hn hch range).mp (by simpa using hb) e he
  have h2 := e.range.start_lt_stop
  have h3 := range.start_lt_stop
  omega

/-- What a replacement makes of a subtree with the gap: entries are lost, or leaves stand at two
depths. -/
structure Spoilt (n : BPlusNode) (rs : List VmEntry) (r : Replaced) : Prop where
  cursor : r.cursor = ⟨[], true⟩
  ne : r.edited.toNodes n ≠ []
  dense : ∀ m ∈ r.edited.toNodes n, Dense m
  size_le : (valuesAll (r.edited.toNodes n)).length ≤ n.values.length + rs.length
  mixed : (valuesAll (r.edited.toNodes n)).length = n.values.length + rs.length →
    ∀ d, ¬ ∀ m ∈ r.edited.toNodes n, AtDepth d m

lemma spoilt_after {seps : List ℕ} {cs : List BPlusNode} {len vmSize height : ℕ}
    (hn : Dense (.internal seps cs len vmSize height)) (hrs : rs ≠ [])
    (h : replaceRangeAfter (.internal seps cs len vmSize height) ⟨rs, false⟩ rem = some r) :
    Spoilt (.internal seps cs len vmSize height) rs r := by
  obtain ⟨ns, h1, -, h3, h4⟩ := leafNodesFromEntries_spec rs
  have hemp : rs.isEmpty = false := by simpa using hrs
  simp only [replaceRangeAfter, Bool.false_eq_true, if_false, hemp, h1, map_some, some.injEq] at h
  subst h
  refine ⟨rfl, by simp [toNodes], ?_, ?_, fun _ d hd => ?_⟩
  · intro m hm
    rcases mem_append.mp hm with hm | hm
    · exact (h3 m hm).dense
    · rw [mem_singleton.mp hm]; exact hn
  · simp only [toNodes, valuesAll_append, h4, valuesAll_cons, valuesAll_nil,
      append_nil, length_append]
    omega
  have hne : ns ≠ [] := by
    rintro rfl
    exact hrs (by simpa using h4.symm)
  obtain ⟨l, hl⟩ := exists_mem_of_ne_nil _ hne
  obtain rfl : d = 1 := (hd l (mem_append_left _ hl)).unique (h3 l hl).atDepth (h3 l hl).dense
  have hint := hd (.internal seps cs len vmSize height)
    (mem_append_right _ (mem_singleton.mpr rfl))
  cases hn with
  | internal ne hcs =>
    obtain ⟨c, hc⟩ := exists_mem_of_ne_nil _ ne
    cases hint with
    | internal hch => exact not_atDepth_zero (hch c hc)

lemma first_child_unique {A A' B B' : List BPlusNode} {c c' : BPlusNode}
    (h : A ++ c :: B = A' ++ c' :: B') (hA : ∀ a ∈ A, a.beforeRange range = true)
    (hc : c.beforeRange range = false) (hA' : ∀ a ∈ A', a.beforeRange range = true)
    (hc' : c'.beforeRange range = false) : A = A' ∧ c = c' ∧ B = B' := by
  have htw : ∀ {X : List BPlusNode} {x : BPlusNode} {Y : List BPlusNode},
      (∀ a ∈ X, a.beforeRange range = true) → x.beforeRange range = false →
      (X ++ x :: Y).takeWhile (fun a => a.beforeRange range) = X := fun hX hx => by
    rw [takeWhile_append_of_pos hX, takeWhile_cons_of_neg (by simp [hx]), append_nil]
  have hAA : A = A' := by rw [← htw hA hc (Y := B), h, htw hA' hc']
  subst hAA
  obtain ⟨h1, h2⟩ := cons.inj (append_cancel_left h)
  exact ⟨rfl, h1, h2⟩

/-- The children visited for a range in a gap: the one with the gap, alone. -/
lemma childRange_of_gap {A B : List BPlusNode} {k : ℕ} (hcs : AllShaped k (A ++ c :: B))
    (hch : Chained (valuesAll (A ++ c :: B))) (hA : ∀ e ∈ valuesAll A, e.range.stop ≤ range.start)
    (hg : GapBeforeInternal range c) :
    childRangeForReplace (separatorsFor (A ++ c :: B)) (A ++ c :: B) range =
      some (A.length, A.length) := by
  have hmem : ∀ a ∈ A, a ∈ A ++ c :: B := fun a ha => by simp [ha]
  obtain ⟨-, hc, hB⟩ := hcs.around
  have hcb := hg.not_before hc (chained_around hch).2.1
  obtain ⟨A', c', M, B', hdec, hA', hcb', -, hrange, hlast⟩ :=
    childRangeForReplace_spec hcs hch ⟨c, by simp, hcb⟩
  have hnodes : ∀ {X : List BPlusNode}, (∀ a ∈ X, a ∈ A ++ c :: B) →
      (∀ e ∈ valuesAll X, e.range.stop ≤ range.start) → ∀ a ∈ X, a.beforeRange range = true :=
    fun hX hv a ha => (beforeRange_iff (hcs a (hX a ha)) (chained_child hch (hX a ha)) range).mpr
      fun e he => hv e (mem_valuesAll.mpr ⟨a, ha, he⟩)
  obtain ⟨rfl, rfl, rfl⟩ := first_child_unique hdec (hnodes hmem hA) hcb
    (hnodes (fun a ha => by rw [hdec]; simp [ha]) hA') hcb'
  -- nothing behind `c` is visited, since it all lies after the range
  rcases hM : M.getLast? with _ | m
  · rw [getLast?_eq_none_iff] at hM
    simpa [hM] using hrange
  have hmB : m ∈ M ++ B' := mem_append_left _ (mem_of_getLast? hM)
  have hbehind := hg.after_behind hc.dense
    (chained_append.mp (by simpa using hch)).2.1
  have hma : m.afterRange range = true := (afterRange_iff (hB m hmB)
    (chained_child (chained_around hch).2.2 hmB) range).mpr fun e he =>
      hbehind e (by simpa using mem_valuesAll.mpr ⟨m, hmB, he⟩)
  simp [hlast m hM] at hma

/-- **The gap spoils the subtree**: with something to put in, entries are lost or the leaves end up
at different depths. -/
lemma spoilt_of_gap (hn : WellShaped h n) (hch : Chained n.values) (hg : GapBeforeInternal range n)
    (hrs : rs ≠ []) (hr : replaceRangeNode range n ⟨rs, false⟩ rem = some r) : Spoilt n rs r := by
  induction hn generalizing rem r with
  | leaf ne => cases hg
  | @internal k cs ne fits hcs ih =>
    have hn : WellShaped (k + 1) (mkInternal cs (k + 1)) := .internal ne fits hcs
    have hnb := hg.not_before hn hch
    have hai := afterRange_iff hn hch range
    have hdense := hn.dense
    unfold mkInternal at hnb hai hdense hg hch hr ⊢
    rw [replaceRangeNode, hnb] at hr
    simp only [Bool.false_eq_true, if_false] at hr
    split_ifs at hr with ha
    · exact spoilt_after hdense hrs hr
    cases hg with
    | here after => exact absurd (hai.mpr (by simpa using after)) ha
    | @child _ A c B _ _ _ before gap =>
      rw [values_internal] at hch
      have hlen : ∀ X : List BPlusNode, (valuesAll (A ++ X ++ B)).length =
          (valuesAll A).length + (valuesAll X).length + (valuesAll B).length := fun X => by
        simp [Nat.add_assoc]
      simp only [childRange_of_gap hcs hch before gap, Nat.sub_self, Nat.zero_add,
        replaceRangeChildren_skip A (c :: B) 0] at hr
      rcases hr1 : replaceRangeNode range c ⟨rs, false⟩ rem with _ | r1
      · simp [replaceRangeChildren, hr1] at hr
      have hsp := ih c (by simp) (chained_around hch).2.1 gap hr1
      simp only [replaceRangeChildren, hr1, map_some, Bool.and_true, append_nil] at hr
      split_ifs at hr with hsame
      · cases hr
        refine ⟨hsp.cursor, by simp [toNodes], fun m hm => ?_, by simp [toNodes],
          fun heq => ?_⟩
        · rw [mem_singleton.mp hm]; exact hdense
        · exact absurd (by simpa [toNodes] using heq) hrs
      rw [map_eq_some_iff] at hr
      obtain ⟨ns, hns, rfl⟩ := hr
      have htake : (A ++ c :: B).take A.length = A := by simp
      have hdrop : (A ++ c :: B).drop (A.length + 1) = B := by rw [drop_append]; simp
      have hb := rebuilt_internalNodesReplacingChildRange (by
          rw [htake, hdrop]
          intro m hm
          simp only [mem_append] at hm
          rcases hm with (hm | hm) | hm
          · exact (hcs m (by simp [hm])).dense
          · exact hsp.dense m hm
          · exact (hcs m (by simp [hm])).dense) (by
          rw [htake, hdrop]
          simp [hsp.ne]) hns
      rw [htake, hdrop] at hb
      have h1 := hb.size_le
      have h2 := hsp.size_le
      have h3 := hlen (r1.edited.toNodes c)
      have h4 := hlen [c]
      simp only [append_assoc, singleton_append, valuesAll_cons, valuesAll_nil, append_nil] at h4
      have hne := hb.ne (by simp [hsp.ne])
      refine ⟨hsp.cursor, hne, hb.dense, ?_, fun heq d hd => ?_⟩
      · rw [values_internal, toNodes]
        omega
      rw [values_internal, toNodes] at heq
      obtain ⟨x, hx⟩ := exists_mem_of_ne_nil _ hne
      rcases d with _ | d
      · exact not_atDepth_zero (hd x hx)
      have hT := hb.depth (by omega) d hd
      exact hsp.mixed (by omega) d fun m hm => hT m (by simp [hm])

end

end TxKernel.Vm.BPlusNode

/-! ### The index -/

namespace TxKernel.Vm.BPlusRecipeIndex

open TxKernel.Spans BPlusNode BPlusNode.RemovedRecipeRecorder

variable {t : BPlusRecipeIndex} {L rs : List VmEntry} {range : UserRange}

/-- What replacing a range should do: the entries that do not overlap it, merged with the
replacements, in a tree of equal depth with right heights, and the entries that do overlap it as the
answer. -/
def ReplacesRange (t : BPlusRecipeIndex) (L : List VmEntry) (range : UserRange)
    (rs : List VmEntry) : Prop :=
  ∃ t' removed, t.replaceRange range rs = some (t', removed) ∧
    t'.valuesVec = mergeByStart (L.filter fun e => ¬ e.range.overlaps range) rs ∧
    removed = (L.filter fun e => e.range.overlaps range) ∧ RootShaped t'.root

lemma IndexOf.meeting_of_gap (h : IndexOf t L) (hgap : t.GapBeforeInternal range) :
    meeting L range.start range.stop = [] := by
  obtain ⟨root, hroot, hg⟩ := hgap
  obtain ⟨rfl, rfl⟩ | ⟨root, k, rfl, hk, rfl⟩ := h.cases
  · cases hroot
  cases hroot
  exact hg.meeting_eq hk.dense h.chained

section

variable (h : IndexOf t L) (hr : Replacing L range.start range.stop rs)
include h hr

lemma IndexOf.replaceRange (hgap : rs = [] ∨ ¬ t.GapBeforeInternal range) :
    (∃ t', t.replaceRange range rs = some (t', meeting L range.start range.stop) ∧
      IndexOf t' (splice L range.start range.stop rs)) ∧
    ∃ t', t.replaceRangeSummary range rs =
        some (t', .fromEntries (meeting L range.start range.stop)) ∧
      IndexOf t' (splice L range.start range.stop rs) := by
  obtain ⟨t1, h1, h2⟩ := h.replaceRangeWithRecorder hr hgap .collecting
  obtain ⟨t2, h3, h4⟩ := h.replaceRangeWithRecorder hr hgap .summaryOnly
  refine ⟨⟨t1, ?_, h2⟩, t2, ?_, h4⟩
  · simp [BPlusRecipeIndex.replaceRange, h1, observeAll_collecting]
  rw [BPlusRecipeIndex.replaceRangeSummary, h3, Option.map_some, observeAll_summary]
  rfl

lemma IndexOf.not_replacesRange (hrs : rs ≠ []) (hgap : t.GapBeforeInternal range) :
    ¬ ReplacesRange t L range rs := by
  rintro ⟨t', removed, hrep, hvals, -, hshape⟩
  have hmeet := h.meeting_of_gap hgap
  obtain ⟨root, hroot, hg⟩ := hgap
  obtain ⟨rfl, rfl⟩ | ⟨root, k, rfl, hk, rfl⟩ := h.cases
  · cases hroot
  cases hroot
  -- the right result has room for every entry and every replacement
  have hcount := (splice_count h.chained rs range.start_lt_stop).1
  rw [RecipeTree.mergeByStart_replace h.chained hr] at hvals
  rw [hmeet, ← hvals] at hcount
  simp only [List.length_nil, Nat.sub_zero] at hcount
  -- what the descent returned
  simp only [BPlusRecipeIndex.replaceRange, BPlusRecipeIndex.replaceRangeWithRecorder,
    mergeSort_eq hr.chained, Option.map_eq_some_iff, Prod.mk.injEq, Prod.exists] at hrep
  obtain ⟨t1, rem1, hrep, rfl, -⟩ := hrep
  rcases hnode : root.replaceRangeNode range ⟨rs, false⟩ .collecting with _ | r
  · simp [hnode] at hrep
  have hsp := spoilt_of_gap hk h.chained hg hrs hnode
  rcases hbuild : buildRootFromLevel (r.edited.toNodes root) root.height with _ | next
  · simp [hnode, hbuild] at hrep
  simp only [hnode, hbuild, hsp.cursor, Option.bind_eq_bind, Option.bind_some, if_true,
    Option.some.injEq, Prod.mk.injEq] at hrep
  obtain ⟨rfl, -⟩ := hrep
  have hemp : (r.edited.toNodes root).isEmpty = false := by simpa using hsp.ne
  simp only [buildRootFromLevel, hemp, Bool.false_eq_true, if_false, Option.map_eq_some_iff]
    at hbuild
  obtain ⟨top, hgrow, rfl⟩ := hbuild
  obtain ⟨hle, hdepth⟩ := growRoot_depth hsp.dense hgrow
  obtain ⟨k', hk'⟩ := hshape top rfl
  have hle' := hsp.size_le
  have hcount' : top.values.length = root.values.length + rs.length := hcount
  obtain ⟨d, hd⟩ := hdepth (by omega) k' hk'.atDepth
  exact hsp.mixed (by omega) d hd

end

end TxKernel.Vm.BPlusRecipeIndex

namespace TxKernel.Vm.BPlusTree

open TxKernel.Spans TxKernel.Runs BPlusRecipeIndex

/-- The trees reached from the empty one by operations within their preconditions, where no
replacement with something to put in was made in a gap in front of an internal node; with the list
they describe. -/
inductive Reached : PrivateHeap × BPlusTree → PrivateHeap × List VmEntry → Prop
  | new (heap : PrivateHeap) : Reached (heap, .new) (heap, [])
  | entry {s s' : PrivateHeap × BPlusTree} {l : PrivateHeap × List VmEntry} {op : EntryOp}
      {out : Except VmMapError RecipeOut} (h : Reached s l) (hf : op.Fits l)
      (hs : step s op = some (s', out)) : Reached s' (op.onList l).1
  | replaceRange {s : PrivateHeap × BPlusTree} {l : PrivateHeap × List VmEntry} {t' : BPlusTree}
      {range : UserRange} {rs removed : List VmEntry} (h : Reached s l)
      (hr : Replacing l.2 range.start range.stop rs)
      (hgap : rs = [] ∨ ¬ s.2.inner.GapBeforeInternal range)
      (hs : s.2.replaceRange range rs = some (t', removed)) :
      Reached (s.1, t') (l.1, mergeByStart (l.2.filter fun e => ¬ e.range.overlaps range) rs)
  | replaceRangeSummary {s : PrivateHeap × BPlusTree} {l : PrivateHeap × List VmEntry}
      {t' : BPlusTree} {range : UserRange} {rs : List VmEntry} {removed : RemovedRecipeSummary}
      (h : Reached s l) (hr : Replacing l.2 range.start range.stop rs)
      (hgap : rs = [] ∨ ¬ s.2.inner.GapBeforeInternal range)
      (hs : s.2.replaceRangeSummary range rs = some (t', removed)) :
      Reached (s.1, t') (l.1, mergeByStart (l.2.filter fun e => ¬ e.range.overlaps range) rs)

lemma Holds.replaceRange {t : BPlusTree} {L rs : List VmEntry} {range : UserRange}
    (h : Holds t L) (hr : Replacing L range.start range.stop rs)
    (hgap : rs = [] ∨ ¬ t.inner.GapBeforeInternal range) :
    (∀ t' removed, t.replaceRange range rs = some (t', removed) →
      Holds t' (splice L range.start range.stop rs)) ∧
    ∀ t' removed, t.replaceRangeSummary range rs = some (t', removed) →
      Holds t' (splice L range.start range.stop rs) := by
  obtain ⟨⟨t1, h1, h2⟩, t2, h3, h4⟩ := h.index.replaceRange hr hgap
  constructor
  · intro t' removed ht
    have hc := h.counts.replaced h.chained range.start_lt_stop rs t1
    rw [fromEntries_eq] at hc
    simp only [BPlusTree.replaceRange, h1, Option.map_some, Option.some.injEq, Prod.mk.injEq] at ht
    obtain ⟨rfl, -⟩ := ht
    exact ⟨h2, hc⟩
  · intro t' removed ht
    have hc := h.counts.replaced h.chained range.start_lt_stop rs t2
    simp only [BPlusTree.replaceRangeSummary, h3, Option.map_some, Option.some.injEq,
      Prod.mk.injEq] at ht
    obtain ⟨rfl, -⟩ := ht
    exact ⟨h4, hc⟩

variable {s : PrivateHeap × BPlusTree} {l : PrivateHeap × List VmEntry}

lemma Reached.tied (h : Reached s l) : Tied s l := by
  induction h with
  | new heap => exact ⟨rfl, holds_new⟩
  | entry h hf hs ih =>
    obtain ⟨s1, h1, h2⟩ := ih.step _ hf
    rw [hs, Option.some.injEq, Prod.mk.injEq] at h1
    exact h1.1 ▸ h2
  | replaceRange h hr hgap hs ih =>
    rw [RecipeTree.mergeByStart_replace ih.2.chained hr]
    exact ⟨ih.1, (ih.2.replaceRange hr hgap).1 _ _ hs⟩
  | replaceRangeSummary h hr hgap hs ih =>
    rw [RecipeTree.mergeByStart_replace ih.2.chained hr]
    exact ⟨ih.1, (ih.2.replaceRange hr hgap).2 _ _ hs⟩

/-- **When replacing a range is right**: in every reached index, exactly when there is nothing to
put in or the range does not lie in the gap in front of an internal node. -/
theorem replace_range_right_iff_no_gap {s : PrivateHeap × BPlusTree}
    {l : PrivateHeap × List VmEntry} (h : Reached s l) (range : UserRange) (rs : List VmEntry)
    (hr : Replacing l.2 range.start range.stop rs) :
    ReplacesRange s.2.inner l.2 range rs ↔ rs = [] ∨ ¬ s.2.inner.GapBeforeInternal range := by
  have hi := h.tied.2.index
  constructor
  · intro hrep
    by_contra hno
    push Not at hno
    exact hi.not_replacesRange hr hno.1 hno.2 hrep
  · intro hgap
    obtain ⟨⟨t', h1, h2⟩, -⟩ := hi.replaceRange hr hgap
    exact ⟨t', _, h1, by rw [h2.valuesVec_eq, RecipeTree.mergeByStart_replace hi.chained hr], rfl,
      h2.shaped⟩

lemma Reached.run {ops : List EntryOp} {s' : PrivateHeap × BPlusTree}
    {outs : List (Except VmMapError RecipeOut)} (h : Reached s l)
    (hops : Allowed EntryOp.onList EntryOp.Fits l ops)
    (hrun : Runs.run step s ops = some (s', outs)) :
    Reached s' (runSpec EntryOp.onList l ops).1 := by
  induction ops generalizing s l outs with
  | nil =>
    cases hrun
    exact h
  | cons op ops ih =>
    rw [Runs.run] at hrun
    rcases hs : step s op with _ | ⟨s1, out⟩
    · simp [hs] at hrun
    simp only [hs, Option.map_eq_some_iff, Prod.mk.injEq] at hrun
    obtain ⟨⟨s2, outs'⟩, h1, rfl, -⟩ := hrun
    exact ih (.entry h hops.1 hs) hops.2 h1

lemma allowed_inserts {heap : PrivateHeap} {L es : List VmEntry}
    (hL : ∀ e ∈ es, ∀ a ∈ L, ¬ a.range.overlaps e.range)
    (hes : es.Pairwise fun a b => ¬ a.range.overlaps b.range) :
    Allowed EntryOp.onList EntryOp.Fits (heap, L) (es.map .insertEntry) := by
  induction es generalizing L with
  | nil => trivial
  | cons e es ih =>
    obtain ⟨h1, h2⟩ := List.pairwise_cons.mp hes
    refine ⟨hL e (by simp), ih (fun b hb a ha => ?_) h2⟩
    rcases List.mem_merge.mp ha with ha | ha
    · exact hL b (by simp [hb]) a ha
    rw [List.mem_singleton.mp ha]
    exact h1 b hb

def evenPages : List VmEntry :=
  (List.finRange 17).map fun i : Fin 17 => .anon (.pages (10 + 2 * i.val) 1 (by
    have := i.isLt
    unfold userPageSize
    omega))

lemma exists_evenPages :
    ∃ s l outs, run step (.empty, .new) (evenPages.map .insertEntry) = some (s, outs) ∧
      Reached s l ∧ l.2 = evenPages := by
  have hops : Allowed EntryOp.onList EntryOp.Fits (.empty, []) (evenPages.map .insertEntry) :=
    allowed_inserts (by simp) (by decide +kernel)
  have hvals : (run step (.empty, .new) (evenPages.map .insertEntry)).map
      (fun r => r.1.2.inner.valuesVec) = some evenPages := by
    decide +kernel
  obtain ⟨⟨s, outs⟩, hrun, hL⟩ := Option.map_eq_some_iff.mp hvals
  have hreach := (Reached.new .empty).run hops hrun
  rw [hreach.tied.2.index.valuesVec_eq] at hL
  exact ⟨s, _, outs, hrun, hreach, hL⟩

def midPages : VmEntry := .anon (.pages 20 8 (by decide))

/-- Eight pages take the place of four mappings among the seventeen under an internal node. -/
theorem replace_range_right_in_evenPages :
    ∃ s l, Reached s l ∧ l.2 = evenPages ∧
      (l.2.filter fun e => e.range.overlaps midPages.range).length = 4 ∧
      ReplacesRange s.2.inner l.2 midPages.range [midPages] := by
  obtain ⟨s, l, -, -, hreach, hl⟩ := exists_evenPages
  have hfit : Replacing l.2 midPages.range.start midPages.range.stop [midPages] := .self _ midPages
  have hfour : (l.2.filter fun e => e.range.overlaps midPages.range).length = 4 := by
    rw [hl]
    decide +kernel
  refine ⟨s, l, hreach, hl, hfour,
    (replace_range_right_iff_no_gap hreach _ _ hfit).mpr (.inr fun hg => ?_)⟩
  have hnone := hreach.tied.2.index.meeting_of_gap hg
  rw [show (l.2.filter fun e => e.range.overlaps midPages.range) = [] from hnone] at hfour
  cases hfour

def pageTwo : VmEntry := .anon (.pages 2 1 onePage_fits)

/-- **Entries are lost**: seventeen mappings need two leaves; mapping a page in front of them all
leaves that page alone. -/
theorem replace_range_in_front_loses_all :
    ∃ s l, Reached s l ∧ l.2 = evenPages ∧
      Replacing l.2 pageTwo.range.start pageTwo.range.stop [pageTwo] ∧
      (∃ t' removed, s.2.inner.replaceRange pageTwo.range [pageTwo] = some (t', removed) ∧
        t'.valuesVec = [pageTwo]) ∧
      ¬ ReplacesRange s.2.inner l.2 pageTwo.range [pageTwo] := by
  obtain ⟨s, l, outs, hrun, hreach, hL⟩ := exists_evenPages
  have hlost : ((run step (.empty, .new) (evenPages.map .insertEntry)).bind fun r =>
      (r.1.2.inner.replaceRange pageTwo.range [pageTwo]).map fun q => q.1.valuesVec) =
        some [pageTwo] := by
    decide +kernel
  have hkept : (evenPages.filter fun e => ¬ e.range.overlaps pageTwo.range).length = 17 := by
    decide +kernel
  rw [hrun, Option.bind_some, Option.map_eq_some_iff] at hlost
  obtain ⟨⟨t', removed⟩, hrep, hvals⟩ := hlost
  refine ⟨s, l, hreach, hL, .self _ _, ⟨t', removed, hrep, hvals⟩, ?_⟩
  rintro ⟨t2, removed2, hrep2, hvals2, -⟩
  rw [hrep, Option.some.injEq, Prod.mk.injEq] at hrep2
  rw [← hrep2.1, hvals, hL] at hvals2
  have hlen := congrArg List.length hvals2
  rw [mergeByStart, List.length_merge, hkept] at hlen
  simp at hlen

end TxKernel.Vm.BPlusTree
