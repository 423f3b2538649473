import Mathlib.Tactic.Linarith
import TxKernel.Vm.BPlus.Build
import TxKernel.Vm.TreapSimulation

/-!
The shape of a B+ node, and that building nodes gives it: every leaf at depth `h`, heights,
separators and counters right, no node empty or over capacity. The order of the entries is kept
apart.
-/

namespace TxKernel.Vm.BPlusNode

open TxKernel.Spans List

def mkInternal (cs : List BPlusNode) (height : ℕ) : BPlusNode :=
  .internal (separatorsFor cs) cs (cs.map len).sum (cs.map vmSize).sum height

inductive WellShaped : ℕ → BPlusNode → Prop
  | leaf {l : BPlusLeaf} (ne : l.entries ≠ []) : WellShaped 1 (.leaf l)
  | internal {h : ℕ} {cs : List BPlusNode} (ne : cs ≠ []) (fits : cs.length ≤ bplusInternalFanout)
      (children : ∀ c ∈ cs, WellShaped h c) : WellShaped (h + 1) (mkInternal cs (h + 1))

def AllShaped (h : ℕ) (ns : List BPlusNode) : Prop := ∀ n ∈ ns, WellShaped h n

lemma AllShaped.nil (h : ℕ) : AllShaped h [] := by simp [AllShaped]

variable {h : ℕ} {n : BPlusNode} {ranges : List (ℕ × ℕ)} {ns : List BPlusNode} {a b cap : ℕ}

lemma allShaped_cons :
    AllShaped h (n :: ns) ↔ WellShaped h n ∧ AllShaped h ns := by simp [AllShaped]

lemma allShaped_append {ms : List BPlusNode} :
    AllShaped h (ns ++ ms) ↔ AllShaped h ns ∧ AllShaped h ms := by
  simp [AllShaped, or_imp, forall_and]

lemma AllShaped.sublist {ms : List BPlusNode} (hm : AllShaped h ms) (hs : ns.Sublist ms) :
    AllShaped h ns := fun n hn => hm n (hs.subset hn)

lemma WellShaped.height_pos (hn : WellShaped h n) : 1 ≤ h := by
  cases hn <;> omega

lemma WellShaped.height_eq (hn : WellShaped h n) : n.height = h := by
  cases hn <;> rfl

lemma WellShaped.values_ne_nil (hn : WellShaped h n) : n.values ≠ [] := by
  induction hn with
  | leaf ne => simpa using ne
  | @internal h cs ne _ _ ih =>
    obtain ⟨c, cs, rfl⟩ := exists_cons_of_ne_nil ne
    simp [mkInternal, ih c (by simp)]

lemma AllShaped.valuesAll_ne_nil (hn : AllShaped h ns) (ne : ns ≠ []) : valuesAll ns ≠ [] := by
  obtain ⟨n, ns, rfl⟩ := exists_cons_of_ne_nil ne
  simp [(hn n (by simp)).values_ne_nil]

/-! ### The counters and end entries -/

lemma WellShaped.firstEntry_eq (hn : WellShaped h n) : n.firstEntry = n.values.head? := by
  induction hn with
  | leaf ne => simp [firstEntry]
  | @internal h cs ne _ hcs ih =>
    obtain ⟨c, cs, rfl⟩ := exists_cons_of_ne_nil ne
    have := (hcs c (by simp)).values_ne_nil
    simp [mkInternal, firstEntry, firstEntryOf, ih c (by simp), head?_append_of_ne_nil _ this]

lemma lastEntryOf_concat (cs : List BPlusNode) (c : BPlusNode) :
    lastEntryOf (cs ++ [c]) = lastEntry c := by
  induction cs with
  | nil => simp [lastEntryOf]
  | cons d cs ih =>
    rcases cs with _ | ⟨e, cs⟩
    · simp [lastEntryOf]
    · simpa [lastEntryOf] using ih

lemma WellShaped.lastEntry_eq (hn : WellShaped h n) : n.lastEntry = n.values.getLast? := by
  induction hn with
  | leaf ne => simp [lastEntry]
  | @internal h cs ne _ hcs ih =>
    obtain ⟨ds, c, rfl⟩ := eq_nil_or_concat' cs |>.resolve_left ne
    have := (hcs c (by simp)).values_ne_nil
    simp [mkInternal, lastEntry, lastEntryOf_concat, ih c (by simp),
      getLast?_append_of_ne_nil _ this]

/-! ### Balanced chunks -/

/-- Consecutive ranges from `a` to `b`, none empty and none longer than `cap`. -/
def Tiles (cap b : ℕ) : ℕ → List (ℕ × ℕ) → Prop
  | a, [] => a = b
  | a, (s, e) :: ranges => s = a ∧ s < e ∧ e - s ≤ cap ∧ Tiles cap b e ranges

lemma divCeil_spec (hb : 0 < b) : a ≤ divCeil a b * b ∧ divCeil a b * b < a + b := by
  unfold divCeil
  have h1 := Nat.div_add_mod (a + b - 1) b
  have h2 := Nat.mod_lt (a + b - 1) hb
  have h3 := Nat.mul_comm b ((a + b - 1) / b)
  omega

lemma divCeil_le_iff {c : ℕ} (hb : 0 < b) : divCeil a b ≤ c ↔ a ≤ c * b := by
  unfold divCeil
  rw [Nat.div_le_iff_le_mul hb]
  omega

lemma divCeil_mono {a' : ℕ} (hb : 0 < b) (h : a ≤ a') : divCeil a b ≤ divCeil a' b :=
  (divCeil_le_iff hb).mpr (h.trans (divCeil_spec hb).1)

lemma divCeil_lt {n : ℕ} (hn : 2 ≤ n) (hcap : 2 ≤ cap) : divCeil n cap < n := by
  have h1 : divCeil n cap ≤ n - 1 := (divCeil_le_iff (by omega)).mpr
    ((show n ≤ (n - 1) * 2 by omega).trans (Nat.mul_le_mul_left _ hcap))
  omega

lemma lowerChunkCount_eq {n minFill : ℕ} (hcap : 0 < cap) (hfill : 2 * minFill ≤ cap) :
    lowerChunkCount n minFill (divCeil n cap) = divCeil n cap := by
  have hd := (divCeil_spec (a := n) hcap).2
  generalize divCeil n cap = c at hd ⊢
  match c with
  | 0 => rfl
  | 1 => rfl
  | c + 2 =>
    rw [lowerChunkCount, if_neg]
    rw [Nat.not_lt, Nat.le_div_iff_mul_le (by omega)]
    nlinarith

lemma chunkRangesFrom_tiles {n : ℕ} (k start : ℕ) (hs : start ≤ n) (hmin : k ≤ n - start)
    (hmax : n - start ≤ k * cap) :
    Tiles cap n start (chunkRangesFrom n k start) ∧ (chunkRangesFrom n k start).length = k := by
  induction k generalizing start with
  | zero => exact ⟨by simp only [chunkRangesFrom, Tiles]; omega, rfl⟩
  | succ k ih =>
    have hd := divCeil_spec (a := n - start) (b := k + 1) (by omega)
    have hle := (divCeil_le_iff (a := n - start) (b := k + 1) (c := cap) (by omega)).mpr
      (by rw [Nat.mul_comm]; exact hmax)
    generalize hc : divCeil (n - start) (k + 1) = c at hd hle
    have hpos : 0 < c := by
      rcases Nat.eq_zero_or_pos c with h0 | h0
      · rw [h0] at hd; omega
      · exact h0
    rw [Nat.mul_succ] at hd
    have hck : c * k ≤ k * cap := by rw [Nat.mul_comm]; exact Nat.mul_le_mul_left k hle
    have hkeep : k ≤ n - (start + c) := by
      by_contra hlt
      have : n - start < c + k := by omega
      nlinarith
    obtain ⟨h1, h2⟩ := ih (start + c) (by omega) hkeep (by omega)
    simp only [chunkRangesFrom, hc, Tiles, length_cons, h2]
    exact ⟨⟨trivial, by omega, by omega, h1⟩, trivial⟩

/-- The ranges tile the list, with as many chunks as full ones would need. -/
lemma balancedChunkRanges_tiles (cap minFill : ℕ) (hcap : 0 < cap) (hfill : 2 * minFill ≤ cap)
    (n : ℕ) :
    Tiles cap n 0 (balancedChunkRanges n cap minFill) ∧
      (balancedChunkRanges n cap minFill).length = divCeil n cap := by
  unfold balancedChunkRanges
  split_ifs with h0
  · subst h0
    refine ⟨rfl, ?_⟩
    have := (divCeil_le_iff (a := 0) (c := 0) hcap).mpr (by omega)
    simp only [length_nil]
    omega
  · rw [lowerChunkCount_eq hcap hfill]
    refine chunkRangesFrom_tiles _ 0 (by omega) ?_ (by simpa using (divCeil_spec hcap).1)
    exact (divCeil_le_iff hcap).mpr (by simpa using Nat.le_mul_of_pos_right n hcap)

lemma Tiles.le (h : Tiles cap b a ranges) : a ≤ b := by
  induction ranges generalizing a with
  | nil => exact Nat.le_of_eq h
  | cons r ranges ih =>
    obtain ⟨h1, h2, -, h4⟩ := h
    have := ih h4
    omega

lemma leafChunks_spec (ht : Tiles bplusLeafCap b a ranges) (entries : List VmEntry)
    (hl : entries.length = b - a) :
    ∃ ns, leafChunks ranges entries = some ns ∧ ns.length = ranges.length ∧ AllShaped 1 ns ∧
      valuesAll ns = entries := by
  induction ranges generalizing a entries with
  | nil =>
    obtain rfl : entries = [] := eq_nil_of_length_eq_zero (by rw [hl, ht]; omega)
    exact ⟨[], rfl, rfl, .nil 1, by simp⟩
  | cons r ranges ih =>
    obtain ⟨s, e⟩ := r
    obtain ⟨rfl, hlt, hcap, ht'⟩ := ht
    have hle := ht'.le
    have hlen : (entries.take (e - s)).length = e - s := by rw [length_take]; omega
    obtain ⟨ns, h1, h2, h3, h4⟩ := ih ht' (entries.drop (e - s))
      (by rw [length_drop]; omega)
    have hfit : (entries.take (e - s)).length ≤ bplusLeafCap := by omega
    refine ⟨.leaf ⟨entries.take (e - s), _, _, rfl, rfl, hfit⟩ :: ns, ?_, by simp [h2], ?_, ?_⟩
    · simp only [leafChunks, show e - s ≠ 0 by omega, if_false, BPlusLeaf.fromOwnedEntries,
        dif_pos hfit, h1]
      rfl
    · refine allShaped_cons.mpr ⟨.leaf ?_, h3⟩
      change entries.take (e - s) ≠ []
      rw [← length_pos_iff]
      omega
    · simp [h4]

/-- **Leaves from entries** hold those entries, in as few leaves as full ones would need. -/
lemma leafNodesFromEntries_spec (entries : List VmEntry) :
    ∃ ns, leafNodesFromEntries entries = some ns ∧ ns.length = divCeil entries.length bplusLeafCap ∧
      AllShaped 1 ns ∧ valuesAll ns = entries := by
  obtain ⟨h1, h2⟩ := balancedChunkRanges_tiles bplusLeafCap bplusLeafMinFill
    (by decide) (by decide) entries.length
  obtain ⟨ns, h3, h4, h5, h6⟩ := leafChunks_spec h1 entries (by omega)
  exact ⟨ns, h3, by rw [h4, h2], h5, h6⟩

/-! ### Internal nodes -/

def children : BPlusNode → List BPlusNode
  | .leaf _ => []
  | .internal _ cs _ _ _ => cs

/-- `ns` are internal nodes of the given height over the children `cs`, in order. -/
structure Parents (height : ℕ) (ns cs : List BPlusNode) : Prop where
  made : ∀ n ∈ ns, ∃ chunk, chunk ≠ [] ∧ chunk.length ≤ bplusInternalFanout ∧
    n = mkInternal chunk height
  children : ns.flatMap children = cs

lemma Parents.valuesAll_eq {height : ℕ} {cs : List BPlusNode} (h : Parents height ns cs) :
    valuesAll ns = valuesAll cs := by
  obtain ⟨hmade, rfl⟩ := h
  induction ns with
  | nil => simp
  | cons n ns ih =>
    obtain ⟨chunk, -, -, rfl⟩ := hmade n (by simp)
    rw [valuesAll_cons, ih fun m hm => hmade m (by simp [hm])]
    simp [mkInternal, BPlusNode.children]

lemma Parents.allShaped {cs : List BPlusNode} (hp : Parents (h + 1) ns cs) (hcs : AllShaped h cs) :
    AllShaped (h + 1) ns := by
  intro n hn
  obtain ⟨chunk, hne, hfit, rfl⟩ := hp.made n hn
  refine .internal hne hfit fun c hc => hcs c ?_
  rw [← hp.children, mem_flatMap]
  exact ⟨_, hn, hc⟩

lemma chunkChildren_spec (cs : List BPlusNode) (height : ℕ)
    (ht : Tiles bplusInternalFanout b a ranges) (hb : b ≤ cs.length) :
    ∃ ns, chunkChildren cs height ranges = some ns ∧ ns.length = ranges.length ∧
      Parents height ns ((cs.take b).drop a) := by
  induction ranges generalizing a with
  | nil =>
    refine ⟨[], rfl, rfl, by simp, ?_⟩
    have : a = b := ht
    simp [this]
  | cons r ranges ih =>
    obtain ⟨s, e⟩ := r
    obtain ⟨rfl, hlt, hcap, ht'⟩ := ht
    have hle := ht'.le
    obtain ⟨ns, h1, h2, h3⟩ := ih ht'
    set chunk := (cs.take e).drop s with hchunk
    have hlen : chunk.length = e - s := by
      rw [hchunk, length_drop, length_take]; omega
    have hne : chunk ≠ [] := by
      rw [← length_pos_iff]; omega
    have hfit : chunk.length ≤ bplusInternalFanout := by omega
    refine ⟨mkInternal chunk height :: ns, ?_, by simp [h2], ?_, ?_⟩
    · simp only [chunkChildren, ← hchunk, List.isEmpty_iff, hne, if_false, fromChildSlice,
        if_pos hfit, h1]
      rfl
    · intro n hn
      rcases List.mem_cons.mp hn with rfl | hn'
      · exact ⟨chunk, hne, hfit, rfl⟩
      · exact h3.made n hn'
    rw [flatMap_cons, h3.children]
    -- the chunk and what follows it are the whole stretch
    have hcut : (cs.take b).drop s = (cs.take e).drop s ++ (cs.take b).drop e := by
      conv_lhs => rw [← take_append_drop (e - s) ((cs.take b).drop s)]
      rw [take_drop, take_take, drop_drop]
      congr 3 <;> omega
    rw [hcut]
    rfl

lemma internalChunks_spec (cs : List BPlusNode) (height : ℕ) :
    ∃ ns, internalChunks cs height = some ns ∧
      ns.length = divCeil cs.length bplusInternalFanout ∧ Parents height ns cs := by
  obtain ⟨h1, h2⟩ := balancedChunkRanges_tiles bplusInternalFanout
    bplusInternalMinFanout (by decide) (by decide) cs.length
  obtain ⟨ns, h3, h4, h5⟩ := chunkChildren_spec cs height h1 le_rfl
  refine ⟨ns, h3, by rw [h4, h2], ?_⟩
  simpa using h5

lemma foldl_pushInternalChild (as bs : List BPlusNode) :
    bs.foldl pushInternalChild
        ⟨separatorsFor as, as, (as.map len).sum, (as.map vmSize).sum⟩ =
      ⟨separatorsFor (as ++ bs), as ++ bs, ((as ++ bs).map len).sum,
        ((as ++ bs).map vmSize).sum⟩ := by
  induction bs generalizing as with
  | nil => simp
  | cons b bs ih =>
    have hpush : pushInternalChild ⟨separatorsFor as, as, (as.map len).sum, (as.map vmSize).sum⟩ b =
        ⟨separatorsFor (as ++ [b]), as ++ [b], ((as ++ [b]).map len).sum,
          ((as ++ [b]).map vmSize).sum⟩ := by
      rcases as with _ | ⟨a, as⟩
      · simp [pushInternalChild, separatorsFor]
      rcases hk : b.firstKey with _ | k <;>
        simp [pushInternalChild, separatorsFor, filterMap_append, hk, Nat.add_assoc]
    rw [foldl_cons, hpush, ih]
    simp

lemma fromReplacedChildRange_eq (existing : List BPlusNode) (height first last : ℕ)
    (replacements : List BPlusNode)
    (hfit : existing.length - (last - first + 1) + replacements.length ≤ bplusInternalFanout) :
    fromReplacedChildRange existing height first last replacements =
      some (mkInternal (existing.take first ++ replacements ++
        existing.drop (last + 1)) height) := by
  have h0 : (⟨[], [], 0, 0⟩ : Pushed) =
      ⟨separatorsFor [], [], (([] : List BPlusNode).map len).sum,
        (([] : List BPlusNode).map vmSize).sum⟩ := rfl
  simp only [fromReplacedChildRange, if_pos hfit, h0, foldl_pushInternalChild, nil_append]
  rfl

end TxKernel.Vm.BPlusNode
