import TxKernel.Vm.BPlus.Shape

/-!
The repair of underfull siblings keeps a well-shaped level well shaped, and so do the nodes built
over it. One loop stands for the two passes of the source, which regroup entries or grandchildren.
-/

namespace TxKernel.Vm.BPlusNode

open List Option

namespace Repair

variable {ι : Type}

/-- What a repair pass relies on: nodes with `P` hand out items with `Q`, and any items can be
rebuilt into nodes with `P`, as few as full nodes would need. -/
structure Sound (R : Repair ι) (P : BPlusNode → Prop) (Q : ι → Prop)
    (val : List ι → List VmEntry) : Prop where
  items : ∀ c, P c → ∃ xs, R.items c = some xs ∧ (∀ x ∈ xs, Q x) ∧ val xs = values c ∧
    xs.length = R.count c ∧ xs ≠ [] ∧ xs.length ≤ 16
  rebuild : ∀ xs, xs ≠ [] → (∀ x ∈ xs, Q x) → ∃ ns, R.rebuild xs = some ns ∧ ns ≠ [] ∧
    (∀ n ∈ ns, P n) ∧ valuesAll ns = val xs ∧ ns.length ≤ divCeil xs.length 16
  val_nil : val [] = []
  val_append : ∀ xs ys, val (xs ++ ys) = val xs ++ val ys
  half : 2 * R.minFill ≤ 16

variable {R : Repair ι} {P : BPlusNode → Prop} {Q : ι → Prop} {val : List ι → List VmEntry}

lemma Sound.gather (h : R.Sound P Q val) {g : List BPlusNode} (hg : ∀ c ∈ g, P c) :
    ∃ xs, R.gather g = .ok xs ∧ (∀ x ∈ xs, Q x) ∧ val xs = valuesAll g ∧
      xs.length = (g.map R.count).sum := by
  induction g with
  | nil => exact ⟨[], rfl, by simp, by simp [h.val_nil], rfl⟩
  | cons c g ih =>
    obtain ⟨xs, h1, h2, h3, h4, -, -⟩ := h.items c (hg c (by simp))
    obtain ⟨ys, k1, k2, k3, k4⟩ := ih fun d hd => hg d (by simp [hd])
    refine ⟨xs ++ ys, by simp [Repair.gather, h1, k1, Except.map], ?_, ?_, ?_⟩
    · intro x hx
      rcases mem_append.mp hx with hx | hx
      · exact h2 x hx
      · exact k2 x hx
    · rw [h.val_append, h3, k3, valuesAll_cons]
    · simp [h4, k4]

section

variable (R : Repair ι) (rebalanced : List BPlusNode) (c : BPlusNode) (rest : List BPlusNode)

lemma group_append :
    (R.group rebalanced c rest).1 ++ (R.group rebalanced c rest).2.1 ++
      (R.group rebalanced c rest).2.2 = rebalanced ++ c :: rest := by
  have hlast : rebalanced.dropLast ++ rebalanced.getLast?.toList = rebalanced := by
    rcases eq_nil_or_concat' rebalanced with rfl | ⟨l, a, rfl⟩ <;> simp
  have hhead : rest.head?.toList ++ rest.tail = rest := by cases rest <;> simp
  unfold group
  simp only
  split_ifs
  · calc rebalanced.dropLast ++ (rebalanced.getLast?.toList ++ [c] ++ rest.head?.toList) ++
          rest.tail
        = (rebalanced.dropLast ++ rebalanced.getLast?.toList) ++
          c :: (rest.head?.toList ++ rest.tail) := by simp
      _ = rebalanced ++ c :: rest := by rw [hlast, hhead]
  · calc rebalanced.dropLast ++ (rebalanced.getLast?.toList ++ [c]) ++ rest
        = (rebalanced.dropLast ++ rebalanced.getLast?.toList) ++ c :: rest := by simp
      _ = rebalanced ++ c :: rest := by rw [hlast]

lemma mem_group : c ∈ (R.group rebalanced c rest).2.1 := by
  unfold group
  simp only
  split_ifs <;> simp

end

/-- A group around an underfull child fits into as many nodes as it has. -/
lemma group_fits (R : Repair ι) (half : 2 * R.minFill ≤ 16) {rebalanced : List BPlusNode}
    {c : BPlusNode} (rest : List BPlusNode) (hc : R.count c < R.minFill)
    (h1 : ∀ d ∈ rebalanced, R.count d ≤ 16) (h2 : ∀ d ∈ rest, R.count d ≤ 16) :
    ((R.group rebalanced c rest).2.1.map R.count).sum ≤
      (R.group rebalanced c rest).2.1.length * 16 := by
  have hprev : (rebalanced.getLast?.toList.map R.count).sum ≤
      rebalanced.getLast?.toList.length * 16 := by
    rcases hl : rebalanced.getLast? with _ | d
    · simp
    · simpa using h1 d (mem_of_getLast? hl)
  have hnext : (rest.head?.toList.map R.count).sum ≤ rest.head?.toList.length * 16 := by
    rcases rest with _ | ⟨d, rest⟩
    · simp
    · simpa using h2 d (by simp)
  unfold group
  simp only
  split_ifs <;> simp only [map_append, sum_append, length_append, map_cons,
    map_nil, sum_cons, sum_nil, length_cons, length_nil] <;> omega

/-- **The repair loop**: nothing is lost, every node is of the right kind, and the level does not
grow. -/
lemma Sound.loop (h : R.Sound P Q val) (rebalanced rest : List BPlusNode)
    (h1 : ∀ c ∈ rebalanced, P c) (h2 : ∀ c ∈ rest, P c) :
    ∃ ns, R.loop rebalanced rest = some ns ∧ (∀ n ∈ ns, P n) ∧
      valuesAll ns = valuesAll rebalanced ++ valuesAll rest ∧
      ns.length ≤ rebalanced.length + rest.length := by
  have hcount : ∀ c, P c → R.count c ≤ 16 := fun c hc => by
    obtain ⟨xs, -, -, -, h4, -, h6⟩ := h.items c hc
    omega
  induction hn : rest.length using Nat.strong_induction_on generalizing rebalanced rest with
  | _ n ih =>
    rcases rest with _ | ⟨c, rest⟩
    · exact ⟨rebalanced, by rw [Repair.loop], h1, by simp, by simp⟩
    have hPc := h2 c (by simp)
    obtain ⟨xs, hx1, -⟩ := h.items c hPc
    by_cases hfull : R.minFill ≤ R.count c
    · -- a full child is kept
      obtain ⟨ns, k1, k2, k3, k4⟩ := ih rest.length (by simp at hn; omega)
        (rebalanced ++ [c]) rest
        (fun d hd => by
          rcases mem_append.mp hd with hd | hd
          · exact h1 d hd
          · rw [mem_singleton.mp hd]; exact hPc)
        (fun d hd => h2 d (by simp [hd])) rfl
      refine ⟨ns, ?_, k2, by simp [k3], by simp at k4 hn; omega⟩
      rw [Repair.loop, hx1]
      simp only [isNone_some, Bool.false_eq_true, if_false, hfull, if_true, k1]
    -- an underfull one is rebuilt together with its neighbours
    have happ := R.group_append rebalanced c rest
    have hlen := R.length_group_rest rebalanced c rest
    have hfits := R.group_fits h.half rest (Nat.lt_of_not_le hfull)
      (fun d hd => hcount d (h1 d hd)) fun d hd => hcount d (h2 d (by simp [hd]))
    have hmem := R.mem_group rebalanced c rest
    generalize hgr : R.group rebalanced c rest = g at happ hlen hfits hmem
    obtain ⟨g1, g2, g3⟩ := g
    simp only at happ hlen hfits hmem
    have hP : ∀ d ∈ g1 ++ g2 ++ g3, P d := by
      rw [happ]
      intro d hd
      rcases mem_append.mp hd with hd | hd
      · exact h1 d hd
      · exact h2 d hd
    obtain ⟨items, i1, i2, i3, i4⟩ := h.gather (g := g2) fun d hd => hP d (by simp [hd])
    have hne : items ≠ [] := by
      rintro rfl
      obtain ⟨ys, -, -, -, hy, hyne, -⟩ := h.items c hPc
      have hpos : 0 < ys.length := length_pos_iff.mpr hyne
      obtain ⟨l1, l2, hl⟩ := append_of_mem hmem
      simp [hl] at i4
      omega
    obtain ⟨nodes, r1, -, r3, r4, r5⟩ := h.rebuild items hne i2
    have hnodes : nodes.length ≤ g2.length :=
      r5.trans ((divCeil_le_iff (by decide)).mpr (by omega))
    obtain ⟨ns, k1, k2, k3, k4⟩ := ih g3.length (by simp at hn; omega)
      (g1 ++ nodes) g3
      (fun d hd => by
        rcases mem_append.mp hd with hd | hd
        · exact hP d (by simp [hd])
        · exact r3 d hd)
      (fun d hd => hP d (by simp [hd])) rfl
    refine ⟨ns, ?_, k2, ?_, ?_⟩
    · rw [Repair.loop, hx1]
      simp only [isNone_some, Bool.false_eq_true, if_false, hfull, hgr, i1, r1, k1]
    · have := congrArg valuesAll happ
      simp only [valuesAll_append, valuesAll_cons] at this
      rw [k3, valuesAll_append, r4, i3, valuesAll_cons, this]
    · have := congrArg length happ
      simp only [length_append, length_cons] at this k4 hn
      omega

variable {cs : List BPlusNode}

lemma Sound.rebalance (h : R.Sound P Q val) (hcs : ∀ c ∈ cs, P c) :
    ∃ ns, R.rebalance cs = some ns ∧ (∀ n ∈ ns, P n) ∧ valuesAll ns = valuesAll cs ∧
      ns.length ≤ cs.length := by
  unfold Repair.rebalance
  split_ifs
  · exact ⟨cs, rfl, hcs, rfl, le_rfl⟩
  · obtain ⟨ns, h1, h2, h3, h4⟩ := h.loop [] cs (by simp) hcs
    exact ⟨ns, h1, h2, by simpa using h3, by simpa using h4⟩
  · exact ⟨cs, rfl, hcs, rfl, le_rfl⟩

end Repair

/-! ### The two passes -/

lemma leafRepair_sound :
    leafRepair.Sound (WellShaped 1) (fun _ => True) (fun es : List VmEntry => es) where
  items c hc := by
    cases hc with
    | @leaf l ne => exact ⟨l.entries, rfl, by simp, by simp, l.len_eq.symm, ne, l.fits⟩
    | internal ne _ hcs =>
      obtain ⟨d, ds, rfl⟩ := exists_cons_of_ne_nil ne
      have := (hcs d (by simp)).height_pos
      omega
  rebuild xs hne _ := by
    obtain ⟨ns, h1, h2, h3, h4⟩ := leafNodesFromEntries_spec xs
    refine ⟨ns, h1, ?_, h3, h4, h2.le⟩
    rintro rfl
    exact hne (by simpa using h4.symm)
  val_nil := rfl
  val_append _ _ := rfl
  half := by decide

variable {h : ℕ} {level : List BPlusNode}

lemma internalRepair_sound (hh : 1 ≤ h) {rebuild : List BPlusNode → Option (List BPlusNode)}
    (hr : ∀ cs, AllShaped h cs → ∃ ns, rebuild cs = some ns ∧ AllShaped (h + 1) ns ∧
      valuesAll ns = valuesAll cs ∧ ns.length ≤ divCeil cs.length bplusInternalFanout) :
    (internalRepair rebuild).Sound (WellShaped (h + 1)) (WellShaped h) valuesAll where
  items c hc := by
    cases hc with
    | leaf _ => omega
    | @internal _ cs ne fits hcs =>
      exact ⟨cs, rfl, hcs, by simp [mkInternal], rfl, ne, fits⟩
  rebuild xs hne hxs := by
    obtain ⟨ns, h1, h2, h3, h4⟩ := hr xs hxs
    refine ⟨ns, h1, ?_, h2, h3, h4⟩
    rintro rfl
    exact AllShaped.valuesAll_ne_nil hxs hne (by simpa using h3.symm)
  val_nil := by simp
  val_append := by simp
  half := show 2 * bplusInternalMinFanout ≤ 16 by decide

/-! ### Levels -/

/-- **Parents over a level**: nothing is lost, the height is right, and sixteen children share a
parent. -/
lemma internalNodesFromChildren_spec (hh : 1 ≤ h) (hcs : AllShaped h cs) :
    ∃ ns, internalNodesFromChildren (h + 1) cs = some ns ∧ AllShaped (h + 1) ns ∧
      valuesAll ns = valuesAll cs ∧ ns.length ≤ divCeil cs.length bplusInternalFanout := by
  induction h, hh using Nat.le_induction generalizing cs with
  | base =>
    obtain ⟨ds, h1, h2, h3, h4⟩ := leafRepair_sound.rebalance hcs
    obtain ⟨ns, k1, k2, k3⟩ := internalChunks_spec ds 2
    refine ⟨ns, ?_, k3.allShaped h2, by rw [k3.valuesAll_eq, h3],
      k2.le.trans (divCeil_mono (by decide) h4)⟩
    rw [internalNodesFromChildren, if_pos rfl, rebalanceLeafChildren, h1, bind_some, k1]
  | succ h hh ih =>
    obtain ⟨ds, h1, h2, h3, h4⟩ :=
      (internalRepair_sound hh fun es hes => ih hes).rebalance hcs
    obtain ⟨ns, k1, k2, k3⟩ := internalChunks_spec ds (h + 2)
    refine ⟨ns, ?_, k3.allShaped h2, by rw [k3.valuesAll_eq, h3],
      k2.le.trans (divCeil_mono (by decide) h4)⟩
    rw [internalNodesFromChildren, if_neg (by omega), rebalanceInternalChildren, h1,
      bind_some, k1]

lemma internalNodesReplacingChildRange_spec (hh : 1 ≤ h) {cs childNodes : List BPlusNode}
    (hcs : AllShaped h cs) (hns : AllShaped h childNodes) (first last : ℕ) (hfl : first ≤ last)
    (hlast : last < cs.length) :
    ∃ ns, internalNodesReplacingChildRange cs (h + 1) first last childNodes = some ns ∧
      AllShaped (h + 1) ns ∧
      valuesAll ns = valuesAll (cs.take first) ++ valuesAll childNodes ++
        valuesAll (cs.drop (last + 1)) := by
  have hall : AllShaped h (cs.take first ++ childNodes ++ cs.drop (last + 1)) :=
    allShaped_append.mpr ⟨allShaped_append.mpr ⟨hcs.sublist (take_sublist ..), hns⟩,
      hcs.sublist (drop_sublist ..)⟩
  unfold internalNodesReplacingChildRange
  simp only
  split_ifs with hfast
  · obtain ⟨hpos, hfit, -⟩ := hfast
    rw [fromReplacedChildRange_eq _ _ _ _ _ hfit]
    refine ⟨_, rfl, ?_, by simp [mkInternal]⟩
    intro n hn
    rw [mem_singleton.mp hn]
    have hlen : (cs.take first ++ childNodes ++ cs.drop (last + 1)).length =
        cs.length - (last - first + 1) + childNodes.length := by
      simp only [length_append, length_take, length_drop]
      omega
    exact .internal (length_pos_iff.mp (by omega)) (by omega) hall
  · obtain ⟨ns, h1, h2, h3, -⟩ := internalNodesFromChildren_spec hh hall
    exact ⟨ns, h1, h2, by rw [h3]; simp⟩

/-! ### The root -/

lemma collapseRoot_spec {n : BPlusNode} (hn : WellShaped h n) :
    ∃ h', WellShaped h' (collapseRoot n) ∧ (collapseRoot n).values = n.values := by
  induction hn with
  | leaf ne => exact ⟨1, by rw [collapseRoot.eq_def]; exact .leaf ne, by rw [collapseRoot.eq_def]⟩
  | @internal h cs ne fits hcs ih =>
    match cs with
    | [] => exact absurd rfl ne
    | [c] =>
      obtain ⟨h', h1, h2⟩ := ih c (by simp)
      exact ⟨h', by simpa [mkInternal, collapseRoot] using h1,
        by simpa [mkInternal, collapseRoot] using h2⟩
    | c :: d :: cs =>
      exact ⟨h + 1, by rw [mkInternal, collapseRoot.eq_def]; exact .internal ne fits hcs,
        by rw [mkInternal, collapseRoot.eq_def]⟩

lemma growRoot_spec (parents : ℕ → List BPlusNode → Option (List BPlusNode))
    (hp : ∀ h cs, 1 ≤ h → AllShaped h cs → ∃ ns, parents (h + 1) cs = some ns ∧
      AllShaped (h + 1) ns ∧ valuesAll ns = valuesAll cs ∧
      ns.length ≤ divCeil cs.length bplusInternalFanout)
    {fuel : ℕ} (hh : 1 ≤ h) (hl : AllShaped h level) (hne : level ≠ [])
    (hfuel : level.length ≤ fuel) :
    ∃ root, growRoot parents fuel level h = some root ∧ (∃ h', WellShaped h' root) ∧
      root.values = valuesAll level := by
  induction fuel generalizing level h with
  | zero => exact absurd (eq_nil_of_length_eq_zero (by omega)) hne
  | succ fuel ih =>
    match level with
    | [] => exact absurd rfl hne
    | [n] =>
      obtain ⟨h', h1, h2⟩ := collapseRoot_spec (hl n (by simp))
      exact ⟨_, by rw [growRoot], ⟨h', h1⟩, by simp [h2]⟩
    | n :: m :: level =>
      obtain ⟨ns, h1, h2, h3, h4⟩ := hp h _ hh hl
      have hlt : divCeil (n :: m :: level).length bplusInternalFanout < _ :=
        divCeil_lt (by simp) (by decide)
      have hne' : ns ≠ [] := by
        rintro rfl
        exact hl.valuesAll_ne_nil (by simp) (by simpa using h3.symm)
      obtain ⟨root, k1, k2, k3⟩ := ih (by omega) h2 hne' (by omega)
      exact ⟨root, by rw [growRoot, h1, bind_some, k1], k2, by rw [k3, h3]⟩

def RootShaped (root : Option BPlusNode) : Prop := ∀ n, root = some n → ∃ h, WellShaped h n

def rootValues (root : Option BPlusNode) : List VmEntry := (root.map values).getD []

lemma buildRootFromLevel_spec (hh : 1 ≤ h) (hl : AllShaped h level) :
    ∃ root, buildRootFromLevel level h = some root ∧ RootShaped root ∧
      rootValues root = valuesAll level := by
  unfold buildRootFromLevel
  by_cases hne : level = []
  · exact ⟨none, by simp [hne], by simp [RootShaped], by simp [hne, rootValues]⟩
  obtain ⟨root, h1, h2, h3⟩ := growRoot_spec internalNodesFromChildren
    (fun _ _ hh hcs => internalNodesFromChildren_spec hh hcs) hh hl hne le_rfl
  refine ⟨some root, by simp [hne, h1], ?_, by simpa [rootValues] using h3⟩
  rintro n hn
  cases hn
  exact h2

lemma buildFromEntries_spec (entries : List VmEntry) :
    ∃ root, buildFromEntries entries = some root ∧ RootShaped root ∧
      rootValues root = entries := by
  obtain ⟨ns, h1, -, h3, h4⟩ := leafNodesFromEntries_spec entries
  unfold buildFromEntries
  by_cases hne : ns = []
  · refine ⟨none, by simp [h1, hne], by simp [RootShaped], ?_⟩
    rw [← h4, hne]
    simp [rootValues]
  obtain ⟨root, k1, k2, k3⟩ := growRoot_spec
    (fun height level => internalChunks level height) (fun h cs _ hcs => by
      obtain ⟨ns, k1, k2, k3⟩ := internalChunks_spec cs (h + 1)
      exact ⟨ns, k1, k3.allShaped hcs, k3.valuesAll_eq, k2.le⟩) (le_refl 1) h3 hne le_rfl
  refine ⟨some root, by simp [h1, hne, k1], ?_, by simpa [rootValues, h4] using k3⟩
  rintro n hn
  cases hn
  exact k2

end TxKernel.Vm.BPlusNode
