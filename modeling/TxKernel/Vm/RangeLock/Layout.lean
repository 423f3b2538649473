import TxKernel.Library.SlotTree
import TxKernel.Vm.RangeLock.IntervalTree

/-!
How a tree of reservations lies in the node array. An update of a subtree writes only the slots in
its footprint; relinking and rebalancing at the parent follow every update, so one lemma does that
step.
-/

namespace TxKernel.Vm.ReservationIntervalTree

open TxKernel.SlotTree List IxTree

abbrev RTree := IxTree Reservation

abbrev treeEnd (t : RTree) : ℕ := t.maxEnd fun r => r.range.stop

/-- The node of a reservation over two subtrees. -/
def cell (r : Reservation) (a b : RTree) : ReservationNode :=
  ⟨some r, a.slot, b.slot, 1 + max a.height b.height, max (max r.range.stop (treeEnd a))
    (treeEnd b)⟩

def Laid (nodes : List ReservationNode) : RTree → Prop
  | .nil => True
  | .node i r a b => nodes[i]? = some (cell r a b) ∧ Laid nodes a ∧ Laid nodes b

variable {nodes nodes' nodes'' : List ReservationNode} {i j : ℕ} {r s : Reservation}
  {a b c t t' : RTree}

lemma Laid.congr (h : Laid nodes t) (hn : ∀ k ∈ t.slots, nodes'[k]? = nodes[k]?) :
    Laid nodes' t := by
  induction t with
  | nil => trivial
  | node i r a b iha ihb =>
    obtain ⟨hi, ha, hb⟩ := h
    simp only [slots, mem_cons, mem_append] at hn
    exact ⟨(hn i (.inl rfl)).trans hi, iha ha fun k hk => hn k (.inr (.inl hk)),
      ihb hb fun k hk => hn k (.inr (.inr hk))⟩

lemma Laid.set (h : Laid nodes t) (hi : i ∉ t.slots) (n : ReservationNode) :
    Laid (nodes.set i n) t :=
  h.congr fun k hk => by
    rw [getElem?_set_ne]
    rintro rfl
    exact hi hk

lemma Laid.lt_length (h : Laid nodes t) : ∀ k ∈ t.slots, k < nodes.length := by
  induction t with
  | nil => simp [slots]
  | node i r a b iha ihb =>
    obtain ⟨hi, ha, hb⟩ := h
    simp only [slots, mem_cons, mem_append]
    rintro k (rfl | hk | hk)
    · exact (List.getElem?_eq_some_iff.mp hi).1
    · exact iha ha k hk
    · exact ihb hb k hk

/-! ### Reading -/

lemma nodeHeight_slot (h : Laid nodes t) : nodeHeight nodes t.slot = some t.height := by
  cases t with
  | nil => rfl
  | node i r a b => simp [slot, nodeHeight, h.1, cell, height]

lemma nodeMaxEnd_slot (h : Laid nodes t) : nodeMaxEnd nodes t.slot = some (treeEnd t) := by
  cases t with
  | nil => rfl
  | node i r a b => simp [slot, nodeMaxEnd, h.1, cell, treeEnd, maxEnd]

lemma balanceFactor_node (h : Laid nodes (.node i r a b)) :
    balanceFactor nodes i = some (a.height - b.height) := by
  simp [balanceFactor, h.1, cell, nodeHeight_slot h.2.1, nodeHeight_slot h.2.2]

/-! ### A node over two subtrees -/

/-- Slot `i` links the reservation to two trees; its cached values may be stale. -/
structure Linked (nodes : List ReservationNode) (i : ℕ) (r : Reservation) (a b : RTree) : Prop where
  node : ∃ height maxEnd, nodes[i]? = some ⟨some r, a.slot, b.slot, height, maxEnd⟩
  left : Laid nodes a
  right : Laid nodes b
  nodup : (i :: (a.slots ++ b.slots)).Nodup

lemma Linked.lt_length (h : Linked nodes i r a b) : i < nodes.length := by
  obtain ⟨_, _, hi⟩ := h.node
  exact (List.getElem?_eq_some_iff.mp hi).1

lemma Laid.linked (h : Laid nodes (.node i r a b)) (hn : (node i r a b).slots.Nodup) :
    Linked nodes i r a b :=
  ⟨⟨_, _, h.1⟩, h.2.1, h.2.2, hn⟩

section

variable (h : Linked nodes i r a b)

include h

lemma Linked.notMem_left : i ∉ a.slots :=
  fun hi => (nodup_cons.mp h.nodup).1 (mem_append_left _ hi)

lemma Linked.notMem_right : i ∉ b.slots :=
  fun hi => (nodup_cons.mp h.nodup).1 (mem_append_right _ hi)

lemma Linked.recompute_ok :
    recompute nodes i = some (nodes.set i (cell r a b)) ∧
      Laid (nodes.set i (cell r a b)) (.node i r a b) := by
  obtain ⟨height, maxEnd, hi⟩ := h.node
  refine ⟨?_, by rw [getElem?_set_self h.lt_length], h.left.set h.notMem_left _,
    h.right.set h.notMem_right _⟩
  simp only [recompute, hi, nodeHeight_slot h.left, nodeHeight_slot h.right,
    nodeMaxEnd_slot h.left, nodeMaxEnd_slot h.right, cell, Option.bind_eq_bind, Option.bind_some,
    Option.pure_def]

end

/-! ### Footprints -/

/-- The tree lies in `nodes'`, which differs from `nodes` in the slots of `S` only; the slots of
`S` that are not in the tree are free. -/
structure Updated (nodes nodes' : List ReservationNode) (S : List ℕ) (t : RTree) : Prop where
  laid : Laid nodes' t
  nodup : t.slots.Nodup
  sub : ∀ k ∈ t.slots, k ∈ S
  freed : ∀ k ∈ S, k ∉ t.slots → nodes'[k]? = some .empty
  length : nodes'.length = nodes.length
  frame : ∀ k, k ∉ S → nodes'[k]? = nodes[k]?

variable {S : List ℕ} {x y e f : RTree} {S' F : List ℕ} {k : ℕ} {w : Reservation}

lemma Updated.laid_of_disjoint (h : Updated nodes nodes' S t) (ha : Laid nodes a)
    (hd : ∀ k ∈ a.slots, k ∉ S) : Laid nodes' a :=
  ha.congr fun k hk => h.frame k (hd k hk)

lemma Updated.of_perm (hl : Laid nodes' t) (hp : t.slots.Perm S) (hn : S.Nodup)
    (hlen : nodes'.length = nodes.length) (hf : ∀ k, k ∉ S → nodes'[k]? = nodes[k]?) :
    Updated nodes nodes' S t :=
  ⟨hl, hp.nodup_iff.mpr hn, fun _ hk => hp.mem_iff.mp hk,
    fun _ hk hk' => absurd (hp.mem_iff.mpr hk) hk', hlen, hf⟩

/-! ### Rotations -/

lemma relink_ok {m g : ℤ} {e f : ℕ} (hi : i < nodes.length) (hj : j < nodes.length)
    (ha : Laid nodes a) (hb : Laid nodes b) (hS : S.Nodup) (hp : (node j s x y).slots.Perm S)
    (hxy : x = .node i r a b ∧ Laid nodes y ∨ y = .node i r a b ∧ Laid nodes x) :
    ∃ n3 n4, recompute ((nodes.set j ⟨some s, x.slot, y.slot, m, e⟩).set i
        ⟨some r, a.slot, b.slot, g, f⟩) i = some n3 ∧ recompute n3 j = some n4 ∧
      Updated nodes n4 S (.node j s x y) := by
  have hn := hp.nodup_iff.mpr hS
  have hni : (node i r a b).slots.Nodup ∧ j ∉ (node i r a b).slots ∧ i ∈ S := by
    rcases hxy with ⟨rfl, -⟩ | ⟨rfl, -⟩ <;> grind [slots]
  have hin := nodup_cons.mp hni.1
  simp only [slots, mem_cons, mem_append, not_or] at hni hin
  let n2 := (nodes.set j ⟨some s, x.slot, y.slot, m, e⟩).set i ⟨some r, a.slot, b.slot, g, f⟩
  have h2 : Linked n2 i r a b := ⟨⟨_, _, getElem?_set_self (by simpa using hi)⟩,
    (ha.set hni.2.1.2.1 _).set hin.1.1 _, (hb.set hni.2.1.2.2 _).set hin.1.2 _, hni.1⟩
  obtain ⟨e3, l3⟩ := h2.recompute_ok
  have hframe (k : ℕ) (hki : i ≠ k) (hkj : j ≠ k) : (n2.set i (cell r a b))[k]? = nodes[k]? := by
    rw [getElem?_set_ne hki, getElem?_set_ne hki, getElem?_set_ne hkj]
  have hkeep {t : RTree} (ht : Laid nodes t) (hit : i ∉ t.slots) (hjt : j ∉ t.slots) :
      Laid (n2.set i (cell r a b)) t :=
    ht.congr fun k hk => hframe k (fun e => hit (e ▸ hk)) fun e => hjt (e ▸ hk)
  have h3 : Linked (n2.set i (cell r a b)) j s x y := by
    refine ⟨⟨m, e, ?_⟩, ?_, ?_, hn⟩
    · rw [getElem?_set_ne (Ne.symm hni.2.1.1), getElem?_set_ne (Ne.symm hni.2.1.1),
        getElem?_set_self hj]
    · rcases hxy with ⟨rfl, -⟩ | ⟨rfl, hx⟩
      · exact l3
      · exact hkeep hx (by grind [slots]) (by grind [slots])
    · rcases hxy with ⟨rfl, hy⟩ | ⟨rfl, -⟩
      · exact hkeep hy (by grind [slots]) (by grind [slots])
      · exact l3
  obtain ⟨e4, l4⟩ := h3.recompute_ok
  refine ⟨_, _, e3, e4, .of_perm l4 hp hS (by simp [n2]) fun k hk => ?_⟩
  have hkj : j ≠ k := fun h => hk (hp.mem_iff.mp (h ▸ mem_cons_self ..))
  rw [getElem?_set_ne hkj, hframe k (fun h => hk (h ▸ hni.2.2)) hkj]

lemma Linked.rotateLeft_ok (h : Linked nodes i r a (.node j s b c)) :
    ∃ nodes', rotateLeft nodes i = some (nodes', j) ∧
      Updated nodes nodes' (i :: (a.slots ++ (IxTree.node j s b c).slots))
        (.node j s (.node i r a b) c) := by
  obtain ⟨height, maxEnd, hi⟩ := h.node
  obtain ⟨hj, hb, hc⟩ := h.right
  have hji : j ≠ i := fun e => h.notMem_right (e ▸ mem_cons_self ..)
  obtain ⟨n3, n4, e3, e4, hu⟩ := relink_ok h.lt_length (List.getElem?_eq_some_iff.mp hj).1 h.left hb
    h.nodup (perm_iff_count.mpr fun k => by simp only [slots, count_cons, count_append]; omega)
    (.inl ⟨rfl, hc⟩) (m := 1 + max b.height c.height) (g := height) (f := maxEnd)
    (e := max s.range.stop (max (treeEnd b) (treeEnd c)))
  rw [slot_node] at e3
  exact ⟨n4, by simp [rotateLeft, hi, hj, setLeft, setRight, hji, cell, e3, e4], hu⟩

lemma Linked.rotateRight_ok (h : Linked nodes i r (.node j s a b) c) :
    ∃ nodes', rotateRight nodes i = some (nodes', j) ∧
      Updated nodes nodes' (i :: ((IxTree.node j s a b).slots ++ c.slots))
        (.node j s a (.node i r b c)) := by
  obtain ⟨height, maxEnd, hi⟩ := h.node
  obtain ⟨hj, ha, hb⟩ := h.left
  have hji : j ≠ i := fun e => h.notMem_left (e ▸ mem_cons_self ..)
  obtain ⟨n3, n4, e3, e4, hu⟩ :=
    relink_ok h.lt_length (List.getElem?_eq_some_iff.mp hj).1 hb h.right
    h.nodup (perm_iff_count.mpr fun k => by simp only [slots, count_cons, count_append]; omega)
    (.inr ⟨rfl, ha⟩) (m := 1 + max a.height b.height) (g := height) (f := maxEnd)
    (e := max s.range.stop (max (treeEnd a) (treeEnd b)))
  rw [slot_node] at e3
  exact ⟨n4, by simp [rotateRight, hi, hj, setLeft, setRight, hji, cell, e3, e4], hu⟩

/-! ### Relinking a child -/

lemma Updated.trans {n1 n2 n3 n4 : List ReservationNode} (h : Updated n1 n2 S a)
    (hl : n3.length = n2.length) (h23 : ∀ k ≠ i, n3[k]? = n2[k]?) (h' : Updated n3 n4 S' t)
    (hi : i ∈ S') (ha : ∀ k ∈ a.slots, k ∈ S') (hF : ∀ k, k ∈ F ↔ k ∈ S ∨ k ∈ S') :
    Updated n1 n4 F t where
  laid := h'.laid
  nodup := h'.nodup
  sub k hk := (hF k).mpr (.inr (h'.sub k hk))
  freed k hk hkt := by
    by_cases hk' : k ∈ S'
    · exact h'.freed k hk' hkt
    rw [h'.frame k hk', h23 k fun e => hk' (e ▸ hi)]
    exact h.freed k (((hF k).mp hk).resolve_right hk') fun e => hk' (ha k e)
  length := by rw [h'.length, hl, h.length]
  frame k hk := by
    rw [hF, not_or] at hk
    rw [h'.frame k hk.2, h23 k fun e => hk.2 (e ▸ hi), h.frame k hk.1]

lemma Linked.relink (h : Linked nodes i r a b) (hu : Updated nodes nodes' S t) (hF : F.Nodup)
    (hxy : x = t ∧ y = b ∧ F = i :: (S ++ b.slots) ∨ x = a ∧ y = t ∧ F = i :: (a.slots ++ S)) :
    ∃ n2, (y = b → setLeft nodes' i x.slot = some n2) ∧
      (x = a → setRight nodes' i y.slot = some n2) ∧ Linked n2 i r x y ∧
      ∀ n3 t', Updated n2 n3 (i :: (x.slots ++ y.slots)) t' → Updated nodes n3 F t' := by
  obtain ⟨height, maxEnd, hni⟩ := h.node
  have hsub := hu.sub
  have hi : i ∉ S := by rcases hxy with ⟨-, -, rfl⟩ | ⟨-, -, rfl⟩ <;> grind
  have hxy' : Laid nodes' x ∧ Laid nodes' y ∧ (i :: (x.slots ++ y.slots)).Nodup := by
    rcases hxy with ⟨rfl, rfl, rfl⟩ | ⟨rfl, rfl, rfl⟩
    · exact ⟨hu.laid, hu.laid_of_disjoint h.right (by grind), by grind [h.nodup, hu.nodup]⟩
    · exact ⟨hu.laid_of_disjoint h.left (by grind), hu.laid, by grind [h.nodup, hu.nodup]⟩
  obtain ⟨hx, hy, hn⟩ := hxy'
  have hin := (nodup_cons.mp hn).1
  rw [mem_append, not_or] at hin
  have hlt : i < nodes'.length := by rw [hu.length]; exact h.lt_length
  rw [← hu.frame i hi] at hni
  refine ⟨nodes'.set i ⟨some r, x.slot, y.slot, height, maxEnd⟩, ?_, ?_,
    ⟨⟨_, _, getElem?_set_self hlt⟩, hx.set hin.1 _, hy.set hin.2 _, hn⟩, fun n3 t' u3 => ?_⟩
  · rintro rfl
    simp [setLeft, hni]
  · rintro rfl
    simp [setRight, hni]
  · refine hu.trans (by simp) (fun k hk => getElem?_set_ne (Ne.symm hk)) u3 (mem_cons_self ..)
      (fun k hk => ?_) fun k => ?_ <;> rcases hxy with ⟨rfl, rfl, rfl⟩ | ⟨rfl, rfl, rfl⟩ <;> grind

/-! ### Rebalancing -/

lemma Linked.updated_recompute (h : Linked nodes i r a b) :
    Updated nodes (nodes.set i (cell r a b)) (i :: (a.slots ++ b.slots)) (.node i r a b) :=
  .of_perm h.recompute_ok.2 (.refl _) h.nodup (by simp) fun k hk =>
    getElem?_set_ne fun e : i = k => hk (e ▸ mem_cons_self ..)

lemma Updated.again {n1 n2 n3 : List ReservationNode} (h : Updated n1 n2 S a)
    (h' : Updated n2 n3 S t) : Updated n1 n3 S t :=
  ⟨h'.laid, h'.nodup, h'.sub, h'.freed, h'.length.trans h.length,
    fun k hk => (h'.frame k hk).trans (h.frame k hk)⟩

lemma Linked.doubleRight (h : Linked nodes i r (.node j s c (.node k w e f)) b) :
    ∃ n1 n2 n3, rotateLeft nodes j = some (n1, k) ∧ setLeft n1 i (some k) = some n2 ∧
      rotateRight n2 i = some (n3, k) ∧
      Updated nodes n3 (i :: ((IxTree.node j s c (.node k w e f)).slots ++ b.slots))
        (.node k w (.node j s c e) (.node i r f b)) := by
  have hnd := (nodup_cons.mp h.nodup).2
  obtain ⟨n1, e1, u1⟩ := (h.left.linked hnd.of_append_left).rotateLeft_ok
  obtain ⟨n2, e2, -, l2, hthen⟩ := h.relink u1 h.nodup (.inl ⟨rfl, rfl, rfl⟩)
  obtain ⟨n3, e3, u3⟩ := l2.rotateRight_ok
  exact ⟨n1, n2, n3, e1, e2 rfl, e3, hthen _ _ u3⟩

lemma Linked.doubleLeft (h : Linked nodes i r a (.node j s (.node k w e f) c)) :
    ∃ n1 n2 n3, rotateRight nodes j = some (n1, k) ∧ setRight n1 i (some k) = some n2 ∧
      rotateLeft n2 i = some (n3, k) ∧
      Updated nodes n3 (i :: (a.slots ++ (IxTree.node j s (.node k w e f) c).slots))
        (.node k w (.node i r a e) (.node j s f c)) := by
  have hnd := (nodup_cons.mp h.nodup).2
  obtain ⟨n1, e1, u1⟩ := (h.right.linked hnd.of_append_right).rotateRight_ok
  obtain ⟨n2, -, e2, l2, hthen⟩ := h.relink u1 h.nodup (.inr ⟨rfl, rfl, rfl⟩)
  obtain ⟨n3, e3, u3⟩ := l2.rotateLeft_ok
  exact ⟨n1, n2, n3, e1, e2 rfl, e3, hthen _ _ u3⟩

lemma Linked.rebalance_ok (h : Linked nodes i r a b) :
    ∃ nodes' j t, rebalance nodes i = some (nodes', j) ∧ t.slot = some j ∧
      Updated nodes nodes' (i :: (a.slots ++ b.slots)) t ∧
      t.toList = a.toList ++ r :: b.toList := by
  have u1 := h.updated_recompute
  have e1 := h.recompute_ok.1
  have hl := u1.laid
  have hb := balanceFactor_node hl
  generalize nodes.set i (cell r a b) = n1 at *
  have hnode : n1[i]? = some (cell r a b) := hl.1
  have h1 : Linked n1 i r a b := hl.linked u1.nodup
  by_cases hleft : 1 < a.height - b.height
  · -- the left subtree is higher by two, so it is a node
    obtain ⟨j, s, c, d, rfl⟩ := exists_node_of_height (t := a)
      (by have := b.height_nonneg; omega)
    have hbj := balanceFactor_node hl.2.1
    by_cases hlean : c.height - d.height < 0
    · obtain ⟨k, w, e, f, rfl⟩ := exists_node_of_height (t := d)
        (by have := c.height_nonneg; omega)
      obtain ⟨n2, n3, n4, e2, e3, e4, u4⟩ := h1.doubleRight
      refine ⟨n4, k, _, ?_, rfl, u1.again u4, by simp [IxTree.toList]⟩
      simp [rebalance, e1, hb, hleft, hnode, cell, IxTree.slot, hbj, hlean, e2, e3, e4]
    · obtain ⟨n2, e2, u2⟩ := h1.rotateRight_ok
      refine ⟨n2, j, _, ?_, rfl, u1.again u2, by simp [IxTree.toList]⟩
      simp [rebalance, e1, hb, hleft, hnode, cell, IxTree.slot, hbj, hlean, e2]
  by_cases hright : a.height - b.height < -1
  · obtain ⟨j, s, c, d, rfl⟩ := exists_node_of_height (t := b)
      (by have := a.height_nonneg; omega)
    have hbj := balanceFactor_node hl.2.2
    by_cases hlean : d.height < c.height
    · obtain ⟨k, w, e, f, rfl⟩ := exists_node_of_height (t := c)
        (by have := d.height_nonneg; omega)
      obtain ⟨n2, n3, n4, e2, e3, e4, u4⟩ := h1.doubleLeft
      refine ⟨n4, k, _, ?_, rfl, u1.again u4, by simp [IxTree.toList]⟩
      simp [rebalance, e1, hb, hleft, hright, hnode, cell, IxTree.slot, hbj, hlean, e2, e3, e4]
    · obtain ⟨n2, e2, u2⟩ := h1.rotateLeft_ok
      refine ⟨n2, j, _, ?_, rfl, u1.again u2, by simp [IxTree.toList]⟩
      simp [rebalance, e1, hb, hleft, hright, hnode, cell, IxTree.slot, hbj, hlean, e2]
  · refine ⟨n1, i, _, ?_, rfl, u1, rfl⟩
    simp [rebalance, e1, hb, hleft, hright]

lemma Updated.congr (h : Updated nodes nodes' S t) (hS : ∀ k, k ∈ S ↔ k ∈ S') :
    Updated nodes nodes' S' t :=
  ⟨h.laid, h.nodup, fun k hk => (hS k).mp (h.sub k hk), fun k hk => h.freed k ((hS k).mpr hk),
    h.length, fun k hk => h.frame k fun e => hk ((hS k).mp e)⟩

/-- **Editing a subtree**: the parent is linked to the new subtree and rebalanced. -/
lemma Linked.edit (h : Linked nodes i r a b) (hu : Updated nodes nodes' S t) (hF : F.Nodup)
    (hxy : x = t ∧ y = b ∧ F = i :: (S ++ b.slots) ∨ x = a ∧ y = t ∧ F = i :: (a.slots ++ S)) :
    ∃ n2 n3 j t', (y = b → setLeft nodes' i x.slot = some n2) ∧
      (x = a → setRight nodes' i y.slot = some n2) ∧ rebalance n2 i = some (n3, j) ∧
      t'.slot = some j ∧ Updated nodes n3 F t' ∧ t'.toList = x.toList ++ r :: y.toList := by
  obtain ⟨n2, hleft, hright, l2, hthen⟩ := h.relink hu hF hxy
  obtain ⟨n3, j, t', e3, hj, u3, hlist⟩ := l2.rebalance_ok
  exact ⟨n2, n3, j, t', hleft, hright, e3, hj, hthen _ _ u3, hlist⟩

end TxKernel.Vm.ReservationIntervalTree
