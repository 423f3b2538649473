import TxKernel.Vm.RangeLock.Layout
import Mathlib.Data.List.Sort

/-!
Insertion, removal and search of the interval tree, on the list of its reservations. Two rows have
the same key only when ids have wrapped around; removal then takes out one of them.
-/

namespace TxKernel.Vm

open List Reservation

def keyOf (range : UserRange) (id : ℕ) : ℕ ×ₗ ℕ := toLex (range.start, id)

def Reservation.key (r : Reservation) : ℕ ×ₗ ℕ := keyOf r.range r.id

lemma compareReservationKey_cases (id id' : ℕ) (range range' : UserRange) :
    compareReservationKey id range id' range' = .less ∧ keyOf range id < keyOf range' id' ∨
    compareReservationKey id range id' range' = .equal ∧ keyOf range id = keyOf range' id' ∨
    compareReservationKey id range id' range' = .greater ∧ keyOf range' id' < keyOf range id := by
  simp only [compareReservationKey, keyOf, Prod.Lex.toLex_lt_toLex, EmbeddingLike.apply_eq_iff_eq,
    Prod.mk.injEq]
  rcases h : compare range.start range'.start with _ | _ | _
  · have := Nat.compare_eq_lt.mp h
    simp [this]
  · have := Nat.compare_eq_eq.mp h
    rcases h' : compare id id' with _ | _ | _
    · have := Nat.compare_eq_lt.mp h'
      simp [*]
    · have := Nat.compare_eq_eq.mp h'
      simp [*]
    · have := Nat.compare_eq_gt.mp h'
      simp [*]
  · have := Nat.compare_eq_gt.mp h
    simp [this]

namespace ReservationIntervalTree

open TxKernel.SlotTree

def Sorted (l : List Reservation) : Prop := l.Pairwise fun r s => r.key ≤ s.key

variable {l m : List Reservation} {k : ℕ ×ₗ ℕ}

lemma sorted_middle {r : Reservation} :
    Sorted (l ++ r :: m) ↔
      Sorted l ∧ Sorted m ∧ (∀ s ∈ l, s.key ≤ r.key) ∧ ∀ s ∈ m, r.key ≤ s.key := by
  simp only [Sorted, pairwise_append, pairwise_cons, mem_cons, forall_eq_or_imp]
  constructor
  · rintro ⟨hl, ⟨hr, hm⟩, h⟩
    exact ⟨hl, hm, fun s hs => (h s hs).1, hr⟩
  · rintro ⟨hl, hm, h1, h2⟩
    exact ⟨hl, ⟨h2, hm⟩, fun s hs => ⟨h1 s hs, fun u hu => (h1 s hs).trans (h2 u hu)⟩⟩

variable {nodes nodes' : List ReservationNode} {i j : ℕ} {r s x : Reservation} {a b t : RTree}

/-! ### Insertion -/

lemma new_eq_cell (r : Reservation) : ReservationNode.new r = cell r .nil .nil := by
  simp [ReservationNode.new, cell, IxTree.slot, IxTree.height, treeEnd, IxTree.maxEnd]

lemma updated_new (hj : nodes[j]? = some (.new x)) :
    Updated nodes nodes [j] (.node j x .nil .nil) :=
  .of_perm ⟨by rw [hj, new_eq_cell], trivial, trivial⟩ (.refl _) (nodup_singleton j) rfl
    fun _ _ => rfl

/-- A row has come to the tree `t` of `nodes`. -/
structure Inserted (nodes nodes' : List ReservationNode) (j : ℕ) (x : Reservation)
    (t t' : RTree) : Prop where
  updated : Updated nodes nodes' (j :: t.slots) t'
  perm : t'.toList.Perm (x :: t.toList)
  sorted : Sorted t'.toList

lemma insertNode_ok (fuel : ℕ) (hf : t.height < fuel) (hl : Laid nodes t)
    (hn : (j :: t.slots).Nodup) (hj : nodes[j]? = some (.new x)) (hs : Sorted t.toList)
    (hi : t.slot = some i) :
    ∃ nodes' i' t', insertNode fuel nodes i j = some (nodes', i') ∧ t'.slot = some i' ∧
      Inserted nodes nodes' j x t t' := by
  induction fuel generalizing t i with
  | zero =>
    have := t.height_nonneg
    omega
  | succ fuel ih =>
    obtain ⟨r, a, b, rfl⟩ := IxTree.exists_node_of_slot hi
    have hlink := hl.linked (nodup_cons.mp hn).2
    rw [IxTree.height] at hf
    simp only [IxTree.slots, nodup_cons, mem_cons, mem_append, not_or] at hn
    obtain ⟨⟨hji, hja, hjb⟩, hiab, hab⟩ := hn
    obtain ⟨hsa, hsb, hra, hrb⟩ := sorted_middle.mp hs
    have hd := nodup_append.mp hab
    -- the subtree with the row, whether it was empty or not
    have sub : ∀ c : RTree, c.height < fuel → Laid nodes c → (j :: c.slots).Nodup →
        Sorted c.toList → ∃ nodes' k c', c.slot.elim (some (nodes, j))
          (fun child => insertNode fuel nodes child j) = some (nodes', k) ∧ c'.slot = some k ∧
          Inserted nodes nodes' j x c c' := by
      intro c hfc hlc hnc hsc
      cases c with
      | nil => exact ⟨nodes, j, .node j x .nil .nil, rfl, rfl, updated_new hj, .refl _,
          pairwise_singleton ..⟩
      | node k r' c d => exact ih hfc hlc hnc hsc rfl
    obtain ⟨hcmp, hlt⟩ | ⟨hcmp, hle⟩ : compareReservationKey x.id x.range r.id r.range = .less ∧
        x.key < r.key ∨ (compareReservationKey x.id x.range r.id r.range = .equal ∨
          compareReservationKey x.id x.range r.id r.range = .greater) ∧ r.key ≤ x.key := by
      rcases compareReservationKey_cases x.id r.id x.range r.range with h | h | h
      · exact .inl h
      · exact .inr ⟨.inl h.1, h.2.ge⟩
      · exact .inr ⟨.inr h.1, h.2.le⟩
    · obtain ⟨n1, k, c, e1, hk, hins⟩ := sub a (by omega) hl.2.1
        (nodup_cons.mpr ⟨hja, hd.1⟩) hsa
      obtain ⟨n2, n3, i', t', e2, -, e3, hi', u3, hlist⟩ :=
        hlink.edit hins.updated (by grind) (.inl ⟨rfl, rfl, rfl⟩)
      refine ⟨n3, i', t', ?_, hi', u3.congr fun k => ?_, ?_, ?_⟩
      · replace e2 := hk ▸ e2 rfl
        rcases ha : a.slot with _ | child <;>
          simp only [ha, Option.elim_none, Option.elim_some, Option.some.injEq, Prod.mk.injEq] at e1
        · obtain ⟨rfl, rfl⟩ := e1
          simp [insertNode, hj, ReservationNode.new, hl.1, cell, hcmp, ha, e2, e3]
        · simp [insertNode, hj, ReservationNode.new, hl.1, cell, hcmp, ha, e1, e2, e3]
      · simp only [IxTree.slots, mem_cons, mem_append, or_assoc]
        exact or_left_comm
      · rw [hlist]
        exact hins.perm.append_right _
      · rw [hlist, sorted_middle]
        refine ⟨hins.sorted, hsb, fun y hy => ?_, hrb⟩
        rcases mem_cons.mp (hins.perm.mem_iff.mp hy) with rfl | hy
        · exact hlt.le
        · exact hra y hy
    · obtain ⟨n1, k, c, e1, hk, hins⟩ := sub b (by omega) hl.2.2
        (nodup_cons.mpr ⟨hjb, hd.2.1⟩) hsb
      obtain ⟨n2, n3, i', t', -, e2, e3, hi', u3, hlist⟩ :=
        hlink.edit hins.updated (by grind) (.inr ⟨rfl, rfl, rfl⟩)
      refine ⟨n3, i', t', ?_, hi', u3.congr fun k => ?_, ?_, ?_⟩
      · replace e2 := hk ▸ e2 rfl
        rcases hb : b.slot with _ | child <;>
          simp only [hb, Option.elim_none, Option.elim_some, Option.some.injEq, Prod.mk.injEq] at e1
        · obtain ⟨rfl, rfl⟩ := e1
          rcases hcmp with hcmp | hcmp <;>
            simp [insertNode, hj, ReservationNode.new, hl.1, cell, hcmp, hb, e2, e3]
        · rcases hcmp with hcmp | hcmp <;>
            simp [insertNode, hj, ReservationNode.new, hl.1, cell, hcmp, hb, e1, e2, e3]
      · simp only [IxTree.slots, mem_cons, mem_append]
        rw [or_left_comm (a := k ∈ a.slots), or_left_comm]
      · rw [hlist]
        refine ((hins.perm.cons r).append_left _).trans ?_
        exact (((List.Perm.swap x r _).append_left _).trans perm_middle)
      · rw [hlist, sorted_middle]
        refine ⟨hsa, hins.sorted, hra, fun y hy => ?_⟩
        rcases mem_cons.mp (hins.perm.mem_iff.mp hy) with rfl | hy
        · exact hle
        · exact hrb y hy

/-! ### Removal -/

/-- A row with key `k` has left the tree `t` of `nodes`, if there was one. -/
structure Removed (nodes nodes' : List ReservationNode) (k : ℕ ×ₗ ℕ) (t t' : RTree) : Prop where
  updated : Updated nodes nodes' t.slots t'
  keys : (t'.toList.map Reservation.key).Perm ((t.toList.map Reservation.key).erase k)
  subset : t'.toList ⊆ t.toList
  sorted : Sorted t'.toList

lemma minNode_ok (fuel : ℕ) (hf : t.height < fuel) (hl : Laid nodes t) (hi : t.slot = some i) :
    ∃ m node s rest, minNode fuel nodes i = some m ∧ nodes[m]? = some node ∧
      node.reservation = some s ∧ t.toList = s :: rest := by
  induction fuel generalizing t i with
  | zero =>
    have := t.height_nonneg
    omega
  | succ fuel ih =>
    obtain ⟨r, a, b, rfl⟩ := IxTree.exists_node_of_slot hi
    rw [IxTree.height] at hf
    rcases a with _ | ⟨j, r', c, d⟩
    · exact ⟨i, _, r, b.toList, by simp [minNode, hl.1, cell], hl.1, rfl, rfl⟩
    obtain ⟨m, node, s, rest, e, hm, hs, hrest⟩ := ih (t := .node j r' c d) (by omega) hl.2.1 rfl
    refine ⟨m, node, s, rest ++ r :: b.toList, ?_, hm, hs, ?_⟩
    · simp [minNode, hl.1, cell, e]
    · rw [IxTree.toList, hrest, cons_append]

lemma Linked.updated_empty (h : Linked nodes i r a b) (hc : a = .nil ∧ t = b ∨ b = .nil ∧ t = a) :
    Updated nodes (nodes.set i .empty) (i :: (a.slots ++ b.slots)) t := by
  have hlt := h.lt_length
  have hn := nodup_cons.mp h.nodup
  have ht : t.slots = a.slots ++ b.slots ∧ Laid nodes t := by
    rcases hc with ⟨rfl, rfl⟩ | ⟨rfl, rfl⟩
    · exact ⟨by simp [IxTree.slots], h.right⟩
    · exact ⟨by simp [IxTree.slots], h.left⟩
  refine ⟨ht.2.set (ht.1 ▸ hn.1) _, ht.1 ▸ hn.2, fun k hk => mem_cons_of_mem _ (ht.1 ▸ hk),
    fun k hk hkt => ?_, by simp, fun k hk => ?_⟩
  · rcases mem_cons.mp hk with rfl | hk
    · exact getElem?_set_self hlt
    · exact absurd (ht.1 ▸ hk) hkt
  · exact getElem?_set_ne fun e : i = k => hk (e ▸ mem_cons_self ..)

lemma Updated.of_set {S : List ℕ} {n : ReservationNode} (h : Updated (nodes.set i n) nodes' S t)
    (hi : i ∈ S) : Updated nodes nodes' S t :=
  ⟨h.laid, h.nodup, h.sub, h.freed, by rw [h.length, length_set], fun k hk => by
    rw [h.frame k hk, getElem?_set_ne fun e : i = k => hk (e ▸ hi)]⟩

/-- What the removal of a subtree's row promises, for one amount of fuel. -/
def Removes (fuel : ℕ) : Prop :=
  ∀ {nodes : List ReservationNode} {t : RTree} (id : ℕ) (range : UserRange), t.height < fuel →
    Laid nodes t → t.slots.Nodup → Sorted t.toList →
    ∃ nodes' t' removed, removeNode fuel nodes t.slot id range = some (nodes', t'.slot, removed) ∧
      Removed nodes nodes' (keyOf range id) t t'

lemma perm_erase_middle (l m : List (ℕ ×ₗ ℕ)) : (l ++ m).Perm ((l ++ k :: m).erase k) := by
  have h : ((l ++ k :: m).erase k).Perm ((k :: (l ++ m)).erase k) :=
    perm_middle.erase k
  rw [erase_cons_head] at h
  exact h.symm

lemma removeRoot_ok (fuel : ℕ) (ih : Removes fuel) (hf : (IxTree.node i r a b).height < fuel + 1)
    (hl : Laid nodes (.node i r a b)) (hn : (IxTree.node i r a b).slots.Nodup)
    (hs : Sorted (IxTree.node i r a b).toList) :
    ∃ nodes' t', removeRoot fuel (removeNode fuel) nodes i = some (nodes', t'.slot) ∧
      Removed nodes nodes' r.key (.node i r a b) t' := by
  have hlink := hl.linked hn
  obtain ⟨hsa, hsb, hra, hrb⟩ := sorted_middle.mp hs
  rw [IxTree.height] at hf
  have hkeys : ((a.toList ++ b.toList).map key).Perm
      (((IxTree.node i r a b).toList.map key).erase r.key) := by
    simp only [IxTree.toList, map_append, map_cons]
    exact perm_erase_middle _ _
  rcases a with _ | ⟨j, ra, c, d⟩
  · refine ⟨nodes.set i .empty, b, ?_, hlink.updated_empty (.inl ⟨rfl, rfl⟩), hkeys, ?_, hsb⟩
    · rcases hb : b.slot with _ | child <;>
        simp [removeRoot, hl.1, cell, hb]
    · exact fun y hy => mem_append_right _ (mem_cons_of_mem _ hy)
  rcases b with _ | ⟨k, rb, e, f⟩
  · refine ⟨nodes.set i .empty, .node j ra c d, ?_, hlink.updated_empty (.inr ⟨rfl, rfl⟩),
      by rw [IxTree.toList, append_nil] at hkeys; exact hkeys, ?_, hsa⟩
    · simp [removeRoot, hl.1, cell]
    · exact fun y hy => mem_append_left _ hy
  -- the first row of the right subtree takes the root's place
  obtain ⟨m, node, s, rest, em, hm, hsm, hrest⟩ :=
    minNode_ok (t := .node k rb e f) fuel (by omega) hl.2.2 rfl
  have hi := nodup_cons.mp hn
  have hd := nodup_append.mp hi.2
  let n1 := nodes.set i { cell r (.node j ra c d) (.node k rb e f) with reservation := some s }
  have l1 : Linked n1 i s (.node j ra c d) (.node k rb e f) :=
    ⟨⟨_, _, getElem?_set_self hlink.lt_length⟩, hl.2.1.set hlink.notMem_left _,
      hl.2.2.set hlink.notMem_right _, hn⟩
  obtain ⟨n2, b', removed, e2, hrem⟩ := ih s.id s.range (by omega) l1.right hd.2.1 hsb
  obtain ⟨n3, n4, i', t', -, e3, e4, hi', u4, hlist⟩ :=
    l1.edit hrem.updated hn (.inr ⟨rfl, rfl, rfl⟩)
  have hsb' := hsb
  rw [hrest, Sorted, pairwise_cons] at hsb'
  have hkeys' : (b'.toList.map key).Perm (rest.map key) := by
    have := hrem.keys
    rw [hrest, map_cons, ← key, erase_cons_head] at this
    exact this
  have hmem : ∀ y ∈ b'.toList, s.key ≤ y.key := fun y hy => by
    obtain ⟨z, hz, hzy⟩ := mem_map.mp (hkeys'.mem_iff.mp (mem_map_of_mem hy))
    rw [← hzy]
    exact hsb'.1 z hz
  refine ⟨n4, t', ?_, u4.of_set (mem_cons_self ..), ?_, ?_, ?_⟩
  · have hrun : ((removeNode fuel n1 (some k) s.id s.range).bind fun x =>
        (setRight x.1 i x.2.1).bind fun n => (rebalance n i).bind fun y =>
          some (y.1, some y.2)) = some (n4, t'.slot) := by
      rw [← IxTree.slot_node k rb e f, e2]
      simp [e3 rfl, e4, hi']
    simpa [removeRoot, hl.1, cell, em, hm, hsm, n1] using hrun
  · refine (List.Perm.trans ?_ hkeys)
    rw [hlist, hrest]
    simp only [map_append, map_cons]
    exact (hkeys'.cons _).append_left _
  · intro y hy
    rw [hlist] at hy
    rw [IxTree.toList]
    rcases mem_append.mp hy with hy | hy
    · exact mem_append_left _ hy
    refine mem_append_right _ (mem_cons_of_mem _ ?_)
    rcases mem_cons.mp hy with rfl | hy
    · rw [hrest]
      exact mem_cons_self ..
    · exact hrem.subset hy
  · rw [hlist, sorted_middle]
    refine ⟨hsa, hrem.sorted, fun y hy => (hra y hy).trans (hrb s ?_), hmem⟩
    rw [hrest]
    exact mem_cons_self ..

lemma erase_left (hk : k < r.key) (hm : ∀ s ∈ m, r.key ≤ s.key) :
    ((l ++ r :: m).map key).erase k =
      (l.map key).erase k ++ (r :: m).map key := by
  have hnot : k ∉ (r :: m).map key := by
    rw [map_cons, mem_cons, mem_map, not_or]
    exact ⟨hk.ne, fun ⟨s, hs, e⟩ => (hk.trans_le (hm s hs)).ne' e⟩
  rw [map_append, erase_append, erase_of_not_mem hnot]
  split_ifs with h
  · rfl
  · rw [erase_of_not_mem h]

lemma erase_right (hk : r.key < k) (hl : ∀ s ∈ l, s.key ≤ r.key) :
    ((l ++ r :: m).map key).erase k =
      l.map key ++ r.key :: (m.map key).erase k := by
  have hnot : k ∉ l.map key := by
    rw [mem_map]
    exact fun ⟨s, hs, e⟩ => ((hl s hs).trans_lt hk).ne e
  rw [map_append, erase_append, if_neg hnot, map_cons, erase_cons_tail (by simpa using hk.ne)]

lemma removeNode_ok : ∀ fuel, Removes fuel := by
  intro fuel
  induction fuel with
  | zero =>
    intro nodes t id range hf
    have := t.height_nonneg
    omega
  | succ fuel ih =>
    intro nodes t id range hf hl hn hs
    rcases t with _ | ⟨i, r, a, b⟩
    · exact ⟨nodes, .nil, none, rfl, .of_perm trivial (.refl _) nodup_nil rfl fun _ _ => rfl,
        .refl _, List.Subset.refl _, hs⟩
    have hlink := hl.linked hn
    have hd := nodup_append.mp (nodup_cons.mp hn).2
    obtain ⟨hsa, hsb, hra, hrb⟩ := sorted_middle.mp hs
    have hf' := hf
    rw [IxTree.height] at hf'
    rcases compareReservationKey_cases id r.id range r.range with h | h | h
    · obtain ⟨hcmp, hlt⟩ := h
      obtain ⟨n1, a', removed, e1, hrem⟩ := ih id range (by omega) hl.2.1 hd.1 hsa
      obtain ⟨n2, n3, j, t', e2, -, e3, hj, u3, hlist⟩ :=
        hlink.edit hrem.updated hn (.inl ⟨rfl, rfl, rfl⟩)
      refine ⟨n3, t', removed, ?_, u3, ?_, ?_, ?_⟩
      · simp [removeNode, hl.1, cell, hcmp, e1, e2 rfl, e3, hj]
      · rw [hlist, IxTree.toList, erase_left hlt hrb, map_append]
        exact hrem.keys.append_right _
      · rw [hlist, IxTree.toList]
        exact append_subset.mpr ⟨fun y hy => mem_append_left _ (hrem.subset hy),
          subset_append_right _ _⟩
      · rw [hlist, sorted_middle]
        exact ⟨hrem.sorted, hsb, fun y hy => hra y (hrem.subset hy), hrb⟩
    · obtain ⟨hcmp, heq⟩ := h
      obtain ⟨n1, t', e1, hrem⟩ := removeRoot_ok fuel ih (by exact_mod_cast hf) hl hn hs
      refine ⟨n1, t', some r, ?_, heq ▸ hrem⟩
      simp [removeNode, hl.1, cell, hcmp, e1]
    · obtain ⟨hcmp, hlt⟩ := h
      obtain ⟨n1, b', removed, e1, hrem⟩ := ih id range (by omega) hl.2.2 hd.2.1 hsb
      obtain ⟨n2, n3, j, t', -, e2, e3, hj, u3, hlist⟩ :=
        hlink.edit hrem.updated hn (.inr ⟨rfl, rfl, rfl⟩)
      refine ⟨n3, t', removed, ?_, u3, ?_, ?_, ?_⟩
      · simp [removeNode, hl.1, cell, hcmp, e1, e2 rfl, e3, hj]
      · rw [hlist, IxTree.toList, erase_right hlt hra, map_append, map_cons]
        exact (hrem.keys.cons _).append_left _
      · rw [hlist, IxTree.toList]
        exact append_subset.mpr ⟨subset_append_left _ _, fun y hy =>
          mem_append_right _ ((cons_subset_cons _ hrem.subset) hy)⟩
      · rw [hlist, sorted_middle]
        exact ⟨hsa, hrem.sorted, hra, fun y hy => hrb y (hrem.subset hy)⟩

/-! ### Search -/

abbrev Hits (range : UserRange) (predicate : Reservation → Bool) (s : Reservation) : Prop :=
  s.range.overlaps range ∧ predicate s

variable {range : UserRange} {predicate : Reservation → Bool}

lemma not_hits_of_treeEnd_le (h : treeEnd t ≤ range.start) (hs : s ∈ t.toList) :
    ¬ Hits range predicate s := by
  rintro ⟨⟨-, hlt⟩, -⟩
  have := IxTree.stop_le_maxEnd (fun r : Reservation => r.range.stop) hs
  simp only [treeEnd] at h
  omega

lemma not_hits_of_start_le (h : range.stop ≤ r.range.start) (hk : r.key ≤ s.key) :
    ¬ Hits range predicate s := by
  rintro ⟨⟨hlt, -⟩, -⟩
  have hle : r.range.start ≤ s.range.start := by
    rcases Prod.Lex.toLex_le_toLex.mp hk with hk | hk
    · exact hk.le
    · exact hk.1.le
  omega

lemma subtreeMayOverlap_slot (h : Laid nodes t) :
    subtreeMayOverlap nodes t.slot range = some (decide (range.start < treeEnd t)) := by
  cases t with
  | nil => simp [subtreeMayOverlap, treeEnd, IxTree.maxEnd]
  | node i r a b => simp [subtreeMayOverlap, h.1, cell, treeEnd, IxTree.maxEnd]

lemma any_hits_eq_false (h : ∀ s ∈ l, ¬ Hits range predicate s) :
    (l.any fun s => decide (Hits range predicate s)) = false := by
  rw [any_eq_false]
  exact fun s hs => by simpa using h s hs

lemma anyOverlapFrom_ok (fuel : ℕ) (hf : t.height < fuel) (hl : Laid nodes t)
    (hs : Sorted t.toList) : anyOverlapFrom predicate range fuel nodes t.slot =
      some (t.toList.any fun s => decide (Hits range predicate s)) := by
  induction fuel generalizing t with
  | zero =>
    have := t.height_nonneg
    omega
  | succ fuel ih =>
    rcases t with _ | ⟨i, r, a, b⟩
    · rfl
    obtain ⟨hsa, hsb, -, hrb⟩ := sorted_middle.mp hs
    rw [IxTree.height] at hf
    have ha := ih (by omega) hl.2.1 hsa
    have hb := ih (by omega) hl.2.2 hsb
    -- what comes after the left subtree
    have hrest : (if r.range.overlaps range ∧ predicate r = true then some true
        else if r.range.start < range.stop then anyOverlapFrom predicate range fuel nodes b.slot
        else some false) = some (decide (Hits range predicate r) ||
          b.toList.any fun s => decide (Hits range predicate s)) := by
      by_cases hr : Hits range predicate r
      · rw [if_pos hr, decide_eq_true hr, Bool.true_or]
      rw [if_neg hr, decide_eq_false hr, Bool.false_or]
      split_ifs with h
      · exact hb
      · rw [any_hits_eq_false fun s hsm => not_hits_of_start_le (not_lt.mp h) (hrb s hsm)]
    rw [IxTree.slot_node, anyOverlapFrom, hl.1]
    simp only [cell, Option.bind_eq_bind, Option.bind_some, subtreeMayOverlap_slot hl.2.1,
      decide_eq_true_eq, IxTree.toList, any_append, any_cons, Option.pure_def, hrest]
    by_cases h : range.start < treeEnd a
    · rw [if_pos h, ha, Option.bind_some]
      cases a.toList.any fun s => decide (Hits range predicate s) <;> simp
    · rw [if_neg h, if_neg Bool.false_ne_true,
        any_hits_eq_false fun s hsm => not_hits_of_treeEnd_le (not_lt.mp h) hsm, Bool.false_or]

def minHitId (range : UserRange) (predicate : Reservation → Bool) : List Reservation → Option ℕ
  | [] => none
  | s :: l =>
    if Hits range predicate s then minOptionId (some s.id) (minHitId range predicate l)
    else minHitId range predicate l

lemma minOptionId_none (a : Option ℕ) : minOptionId a none = a ∧ minOptionId none a = a := by
  cases a <;> exact ⟨rfl, rfl⟩

lemma minOptionId_assoc (a b c : Option ℕ) :
    minOptionId (minOptionId a b) c = minOptionId a (minOptionId b c) := by
  cases a <;> cases b <;> cases c <;> simp [minOptionId, min_assoc]

lemma minHitId_append (l m : List Reservation) : minHitId range predicate (l ++ m) =
    minOptionId (minHitId range predicate l) (minHitId range predicate m) := by
  induction l with
  | nil => rw [nil_append, minHitId, (minOptionId_none _).2]
  | cons s l ih =>
    rw [cons_append, minHitId, minHitId, ih]
    split_ifs
    · rw [minOptionId_assoc]
    · rfl

lemma minHitId_eq_none : minHitId range predicate l = none ↔ ∀ s ∈ l, ¬ Hits range predicate s := by
  induction l with
  | nil => simp [minHitId]
  | cons s l ih =>
    rw [minHitId, forall_mem_cons, ← ih]
    split_ifs with h
    · cases minHitId range predicate l <;> simp [minOptionId, h]
    · simp [h]

lemma minHitId_eq_some {m : ℕ} (h : minHitId range predicate l = some m) :
    (∃ s ∈ l, Hits range predicate s ∧ s.id = m) ∧ ∀ s ∈ l, Hits range predicate s → m ≤ s.id := by
  induction l generalizing m with
  | nil => cases h
  | cons s l ih =>
    rw [minHitId] at h
    rw [forall_mem_cons, exists_mem_cons_iff]
    split_ifs at h with hs
    · rcases hl : minHitId range predicate l with _ | n
      · rw [hl] at h
        cases h
        exact ⟨.inl ⟨hs, rfl⟩, fun _ => le_rfl, fun u hu hu' =>
          absurd hu' (minHitId_eq_none.mp hl u hu)⟩
      rw [hl] at h
      cases h
      obtain ⟨⟨u, hu, huh, hun⟩, hle⟩ := ih hl
      refine ⟨?_, fun _ => min_le_left _ _, fun v hv hvh => (min_le_right _ _).trans (hle v hv hvh)⟩
      rcases min_choice s.id n with e | e
      · exact .inl ⟨hs, e.symm⟩
      · exact .inr ⟨u, hu, huh, hun.trans e.symm⟩
    · obtain ⟨⟨u, hu, hu'⟩, hle⟩ := ih h
      exact ⟨.inr ⟨u, hu, hu'⟩, fun h' => absurd h' hs, hle⟩

lemma minOverlapIdFrom_ok (fuel : ℕ) (hf : t.height < fuel) (hl : Laid nodes t)
    (hs : Sorted t.toList) : minOverlapIdFrom predicate range fuel nodes t.slot =
      some (minHitId range predicate t.toList) := by
  induction fuel generalizing t with
  | zero =>
    have := t.height_nonneg
    omega
  | succ fuel ih =>
    rcases t with _ | ⟨i, r, a, b⟩
    · rfl
    obtain ⟨hsa, hsb, -, hrb⟩ := sorted_middle.mp hs
    rw [IxTree.height] at hf
    have ha := ih (by omega) hl.2.1 hsa
    have hb := ih (by omega) hl.2.2 hsb
    -- what comes after the left subtree, whose best id is `best`
    have hrest : ∀ best : Option ℕ, (if r.range.start < range.stop then
        (minOverlapIdFrom predicate range fuel nodes b.slot).bind fun right =>
          some (minOptionId (if r.range.overlaps range ∧ predicate r = true then
            minOptionId best (some r.id) else best) right)
        else some (if r.range.overlaps range ∧ predicate r = true then
          minOptionId best (some r.id) else best)) =
        some (minOptionId best (minHitId range predicate (r :: b.toList))) := by
      intro best
      have hstep : ∀ right, minOptionId (if r.range.overlaps range ∧ predicate r = true then
          minOptionId best (some r.id) else best) right = minOptionId best
            (if Hits range predicate r then minOptionId (some r.id) right else right) := by
        intro right
        split_ifs
        · exact minOptionId_assoc ..
        · rfl
      rw [minHitId]
      by_cases h : r.range.start < range.stop
      · rw [if_pos h, hb, Option.bind_some, hstep]
      have hnone : minHitId range predicate b.toList = none :=
        minHitId_eq_none.mpr fun s hsm => not_hits_of_start_le (not_lt.mp h) (hrb s hsm)
      rw [if_neg h, hnone, ← hstep, (minOptionId_none _).1]
    rw [IxTree.slot_node, minOverlapIdFrom, hl.1]
    simp only [cell, Option.bind_eq_bind, Option.bind_some, subtreeMayOverlap_slot hl.2.1,
      decide_eq_true_eq, IxTree.toList, minHitId_append, Option.pure_def, hrest]
    by_cases h : range.start < treeEnd a
    · rw [if_pos h, ha, Option.bind_some]
    have hnone : minHitId range predicate a.toList = none :=
      minHitId_eq_none.mpr fun s hsm => not_hits_of_treeEnd_le (not_lt.mp h) hsm
    rw [if_neg h, hnone]

end ReservationIntervalTree

end TxKernel.Vm
