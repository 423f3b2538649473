import TxKernel.Vm.RangeLock.TreeEdits

/-!
The interval tree as a table of rows with a bounded number of slots, each linked into the tree or
empty.
-/

namespace TxKernel.Vm.ReservationIntervalTree

open TxKernel.SlotTree List Reservation IxTree

/-- The tree lies in the array, ordered by key, and all other slots are empty. -/
structure Lies (t : ReservationIntervalTree) (tree : RTree) : Prop where
  root : t.root = tree.slot
  laid : Laid t.nodes tree
  nodup : tree.slots.Nodup
  free : ∀ k < t.nodes.length, k ∉ tree.slots → t.nodes[k]? = some .empty
  sorted : Sorted tree.toList

def HasRows (t : ReservationIntervalTree) (l : List Reservation) : Prop :=
  ∃ tree, Lies t tree ∧ tree.toList = l

variable {t : ReservationIntervalTree} {tree : RTree} {l : List Reservation}

lemma hasRows_new (n : ℕ) : HasRows (new n) [] :=
  ⟨.nil, ⟨rfl, trivial, nodup_nil, fun k hk _ => by
    have hk : k < n := by simpa [new] using hk
    simp [new, hk], List.Pairwise.nil⟩, rfl⟩

/-- One unit of fuel per level is enough, and heights fit a byte when there are 16 slots. -/
lemma Lies.height_le (h : Lies t tree) : tree.height ≤ t.nodes.length := by
  have := tree.height_le_length
  have := length_toList_le h.nodup h.laid.lt_length
  omega

lemma Lies.height_lt (h : Lies t tree) : tree.height < (t.nodes.length + 1 : ℕ) := by
  have := h.height_le
  push_cast
  omega

/-! ### The slots -/

lemma laid_filterMap {nodes : List ReservationNode} (h : Laid nodes tree) :
    (tree.slots.filterMap fun k => nodes[k]?.bind (·.reservation)).Perm tree.toList := by
  induction tree with
  | nil => exact .refl _
  | node i r a b iha ihb =>
    rw [slots, filterMap_cons_some (by rw [h.1]; rfl), filterMap_append,
      toList]
    exact (((iha h.2.1).append (ihb h.2.2)).cons r).trans perm_middle.symm

lemma Lies.mem_slots (h : Lies t tree) {k : ℕ} (hk : k < t.nodes.length) :
    k ∈ tree.slots ↔ (t.nodes[k]?.bind (·.reservation)).isSome := by
  constructor
  · intro hmem
    have hl := h.laid
    clear h
    induction tree with
    | nil => cases hmem
    | node i r a b iha ihb =>
      simp only [slots, mem_cons, mem_append] at hmem
      rcases hmem with rfl | hmem | hmem
      · rw [hl.1]
        rfl
      · exact iha hmem hl.2.1
      · exact ihb hmem hl.2.2
  · intro hsome
    by_contra hmem
    rw [h.free k hk hmem] at hsome
    cases hsome

lemma slots_perm_range (h : Lies t tree) :
    ((range t.nodes.length).filter fun k => decide (k ∈ tree.slots)).Perm tree.slots := by
  refine (perm_ext_iff_of_nodup (nodup_range.filter _) h.nodup).mpr fun k => ?_
  rw [mem_filter, mem_range, decide_eq_true_eq]
  exact ⟨fun hk => hk.2, fun hk => ⟨h.laid.lt_length k hk, hk⟩⟩

lemma HasRows.stored_perm (h : HasRows t l) : t.stored.Perm l := by
  obtain ⟨tree, hlie, rfl⟩ := h
  let f : ℕ → Option Reservation := fun k => t.nodes[k]?.bind (·.reservation)
  have hstored : t.stored = (range t.nodes.length).filterMap f :=
    (filterMap_range ReservationNode.reservation t.nodes).symm
  have hsplit := filter_append_perm (fun k => decide (k ∈ tree.slots))
    (range t.nodes.length)
  have hrest : ((range t.nodes.length).filter fun k => !decide (k ∈ tree.slots)).filterMap f
      = [] := by
    rw [filterMap_eq_nil_iff]
    intro k hk
    rw [mem_filter, mem_range, Bool.not_eq_true', decide_eq_false_iff_not] at hk
    show t.nodes[k]?.bind _ = none
    rw [hlie.free k hk.1 hk.2]
    rfl
  rw [hstored]
  refine (hsplit.symm.filterMap f).trans ?_
  rw [filterMap_append, hrest, append_nil]
  exact ((slots_perm_range hlie).filterMap f).trans (laid_filterMap hlie.laid)

lemma Lies.length_slots (h : Lies t tree) (hall : ∀ k < t.nodes.length, k ∈ tree.slots) :
    tree.toList.length = t.nodes.length := by
  have hp := (slots_perm_range h).length_eq
  rw [filter_eq_self.mpr fun k hk => by simpa using hall k (mem_range.mp hk),
    length_range, IxTree.length_slots] at hp
  exact hp.symm

/-! ### Operations -/

lemma HasRows.insert_ok (h : HasRows t l) (r : Reservation) :
    (l.length < t.nodes.length ∧ ∃ t' l', t.insert r = some (t', true) ∧ HasRows t' l' ∧
      l'.Perm (r :: l) ∧ t'.nodes.length = t.nodes.length) ∨
    (l.length = t.nodes.length ∧ t.insert r = some (t, false)) := by
  obtain ⟨tree, hlie, rfl⟩ := h
  rcases hfind : t.nodes.findIdx? fun node => node.reservation.isNone with _ | slot
  · right
    refine ⟨hlie.length_slots fun k hk => (hlie.mem_slots hk).mpr ?_, by simp [insert, hfind]⟩
    have := findIdx?_eq_none_iff.mp hfind t.nodes[k] (getElem_mem hk)
    rw [getElem?_eq_getElem hk, Option.bind_some]
    simpa using this
  left
  obtain ⟨hlt, hnone, -⟩ := findIdx?_eq_some_iff_getElem.mp hfind
  have hslot : slot ∉ tree.slots := fun hmem => by
    have := (hlie.mem_slots hlt).mp hmem
    rw [getElem?_eq_getElem hlt, Option.bind_some] at this
    rw [Option.isNone_iff_eq_none] at hnone
    simp [hnone] at this
  have hlen : tree.toList.length < t.nodes.length := by
    have := length_toList_le (t := .node slot r tree .nil) (n := t.nodes.length)
      (by simpa [slots] using ⟨hslot, hlie.nodup⟩)
      (by simpa [slots] using ⟨hlt, hlie.laid.lt_length⟩)
    simp only [toList, length_append, length_cons, length_nil] at this
    omega
  refine ⟨hlen, ?_⟩
  let nodes := t.nodes.set slot (.new r)
  have hnew : nodes[slot]? = some (.new r) := getElem?_set_self hlt
  have hl := hlie.laid.set hslot (.new r)
  -- slots outside the new tree are as free as before
  have hfree : ∀ {nodes' : List ReservationNode} {tree' : RTree},
      Inserted nodes nodes' slot r tree tree' → ∀ k < nodes'.length, k ∉ tree'.slots →
        nodes'[k]? = some .empty := by
    intro nodes' tree' hins k hk hk'
    by_cases hmem : k ∈ slot :: tree.slots
    · exact hins.updated.freed k hmem hk'
    rw [hins.updated.frame k hmem]
    rw [mem_cons, not_or] at hmem
    rw [getElem?_set_ne (Ne.symm hmem.1)]
    exact hlie.free k (by rw [hins.updated.length, length_set] at hk; exact hk) hmem.2
  rcases hroot : t.root with _ | root
  · have hnil : tree = .nil := by
      cases tree with
      | nil => rfl
      | node => simp [hlie.root] at hroot
    subst hnil
    have hins : Inserted nodes nodes slot r .nil (.node slot r .nil .nil) :=
      ⟨updated_new hnew, .refl _, pairwise_singleton ..⟩
    refine ⟨⟨some slot, nodes⟩, [r], by simp [insert, hfind, hroot, nodes], ?_, .refl _,
      length_set⟩
    exact ⟨_, ⟨rfl, hins.updated.laid, hins.updated.nodup, hfree hins, hins.sorted⟩, rfl⟩
  · have hf : tree.height < (nodes.length + 1 : ℕ) := by
      rw [length_set]
      exact hlie.height_lt
    obtain ⟨nodes', root', tree', e, hr', hins⟩ := insertNode_ok _ hf hl
      (nodup_cons.mpr ⟨hslot, hlie.nodup⟩) hnew hlie.sorted (hlie.root.symm.trans hroot)
    refine ⟨⟨some root', nodes'⟩, tree'.toList, ?_, ?_, hins.perm, ?_⟩
    · simp only [nodes, length_set] at e
      simp [insert, hfind, hroot, e]
    · exact ⟨tree', ⟨hr'.symm, hins.updated.laid, hins.updated.nodup, hfree hins, hins.sorted⟩, rfl⟩
    · rw [hins.updated.length, length_set]

lemma HasRows.remove_ok (h : HasRows t l) (id : ℕ) (range : UserRange) :
    ∃ t' l' removed, t.remove id range = some (t', removed) ∧ HasRows t' l' ∧
      (l'.map key).Perm ((l.map key).erase (keyOf range id)) ∧
      l' ⊆ l ∧ t'.nodes.length = t.nodes.length := by
  obtain ⟨tree, hlie, rfl⟩ := h
  obtain ⟨nodes', tree', removed, e, hrem⟩ := removeNode_ok _ id range hlie.height_lt hlie.laid
    hlie.nodup hlie.sorted
  refine ⟨⟨tree'.slot, nodes'⟩, tree'.toList, removed, ?_, ⟨tree', ⟨rfl, hrem.updated.laid,
    hrem.updated.nodup, fun k hk hk' => ?_, hrem.sorted⟩, rfl⟩, hrem.keys, hrem.subset,
    hrem.updated.length⟩
  · simp [remove, hlie.root, e]
  by_cases hmem : k ∈ tree.slots
  · exact hrem.updated.freed k hmem hk'
  rw [hrem.updated.frame k hmem]
  exact hlie.free k (hrem.updated.length ▸ hk) hmem

section

variable (h : HasRows t l) (range : UserRange) (predicate : Reservation → Bool)

include h

lemma HasRows.anyOverlapWhere_ok :
    t.anyOverlapWhere range predicate = some (l.any fun s => decide (Hits range predicate s)) := by
  obtain ⟨tree, hlie, rfl⟩ := h
  rw [anyOverlapWhere, hlie.root]
  exact anyOverlapFrom_ok _ hlie.height_lt hlie.laid hlie.sorted

lemma HasRows.minOverlapIdWhere_ok :
    t.minOverlapIdWhere range predicate = some (minHitId range predicate l) := by
  obtain ⟨tree, hlie, rfl⟩ := h
  rw [minOverlapIdWhere, hlie.root]
  exact minOverlapIdFrom_ok _ hlie.height_lt hlie.laid hlie.sorted

end

/-- Where no two rows have one key, removal takes out the row with the key and no other. -/
lemma perm_of_keys_erase {l' : List Reservation} {r : Reservation}
    (hk : (l'.map key).Perm ((l.map key).erase r.key)) (hsub : l' ⊆ l) (hn : (l.map key).Nodup)
    (hr : r ∈ l) : l.Perm (r :: l') := by
  have hinj := inj_on_of_nodup_map hn
  have hn' : (l'.map key).Nodup := hk.nodup_iff.mpr (hn.erase _)
  have hnr : r ∉ l' := fun h => by
    have := hk.mem_iff.mp (mem_map_of_mem h)
    exact (hn.mem_erase_iff.mp this).1 rfl
  refine (perm_ext_iff_of_nodup hn.of_map (nodup_cons.mpr ⟨hnr, hn'.of_map⟩)).mpr
    fun s => ⟨fun hs => ?_, fun hs => ?_⟩
  · rw [mem_cons]
    by_cases hsr : s.key = r.key
    · exact .inl (hinj hs hr hsr)
    have hmem : s.key ∈ (l.map key).erase r.key :=
      hn.mem_erase_iff.mpr ⟨hsr, mem_map_of_mem hs⟩
    obtain ⟨u, hu, hus⟩ := mem_map.mp (hk.mem_iff.mpr hmem)
    exact .inr (hinj (hsub hu) hs hus ▸ hu)
  · rcases mem_cons.mp hs with rfl | hs
    · exact hr
    · exact hsub hs

end TxKernel.Vm.ReservationIntervalTree
