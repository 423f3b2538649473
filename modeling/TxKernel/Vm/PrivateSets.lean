import TxKernel.Vm.PrivatePages

/-!
What the operations on a set of private pages do to its lookup, as long as its keys do not wrap
around.
-/

namespace TxKernel.Vm

open TxKernel.Treap List Tree Tree.Cached Option

/-! ### Trees -/

namespace PrivatePageTree

/-- The tree is ordered by key, and its cached counts and its length are right. -/
structure Sound (t : PrivatePageTree) : Prop where
  ordered : Tree.Ordered t.root.toList
  cached : Tree.Cached privateCache t.root
  len_eq : t.len = t.root.toList.length

variable {t t' : PrivatePageTree} {key frame : ℕ}

lemma sound_default : default.Sound := ⟨List.Pairwise.nil, trivial, rfl⟩

variable {root : PrivatePageNode}

lemma sound_of_cached (ho : Tree.Ordered root.toList) (hc : Tree.Cached privateCache root) :
    Sound ⟨root, root.cached privateCache⟩ := by
  have hlen := cached_eq_sum (fun _ : ℕ => 1) root hc
  rw [map_const', sum_replicate_nat, Nat.mul_one] at hlen
  exact ⟨ho, hc, hlen⟩

lemma Sound.lookup_of_empty (h : t.Sound) (hz : t.len = 0) (k : ℕ) : t.lookup k = none := by
  have hnil : t.root.toList = [] := eq_nil_of_length_eq_zero (by rw [← h.len_eq]; exact hz)
  rw [lookup, find_eq_none _ _ h.ordered, hnil]
  simp

lemma length_insert (h : Tree.Ordered root.toList) :
    (insertPrivateNode root key frame).toList.length = root.toList.length + 1 := by
  rw [insertPrivateNode, toList_insert _ _ _ _ _ h]
  have := length_eq_length_filter_add (l := root.toList) fun a => decide (a.1 ≤ key)
  simp only [length_append, length_cons, ← decide_not, not_le] at this ⊢
  omega

lemma length_remove (h : Tree.Ordered t.root.toList) (hk : t.lookup key ≠ none) :
    (t.root.remove privateCache key).1.toList.length + 1 = t.root.toList.length := by
  obtain ⟨f, hf⟩ := ne_none_iff_exists'.mp hk
  rw [toList_remove _ _ _ h]
  exact h.length_filter_ne ((find_eq_some _ _ h f).mp hf)

section

variable (h : t.Sound)

include h

lemma insertIfAbsent_ok (hi : t.insertIfAbsent key frame = .ok t') :
    t.lookup key = none ∧ t'.Sound ∧
      ∀ k, t'.lookup k = if k = key then some frame else t.lookup k := by
  unfold insertIfAbsent at hi
  rcases hf : t.lookup key with _ | f
  · rw [hf] at hi
    cases hi
    exact ⟨rfl, ⟨ordered_insert _ h.ordered hf, h.cached.insert, by
      rw [length_insert h.ordered, ← h.len_eq]⟩, find_insert _ h.ordered hf⟩
  · rw [hf] at hi
    cases hi

lemma Sound.replaceExact (hk : t.lookup key ≠ none) (frame : ℕ) :
    (t.replaceExact key frame).Sound ∧
      ∀ k, (t.replaceExact key frame).lookup k = if k = key then some frame else t.lookup k := by
  have ho := ordered_remove privateCache (k := key) h.ordered
  have hf : ((t.root.remove privateCache key).1).find key = none := by
    rw [find_remove _ h.ordered, if_pos rfl]
  refine ⟨⟨ordered_insert _ ho hf, h.cached.remove.insert, ?_⟩, fun k => ?_⟩
  · show t.len = _
    rw [PrivatePageTree.replaceExact, length_insert ho, length_remove h.ordered hk, h.len_eq]
  show find k (insert ..) = _
  rw [find_insert _ ho hf, find_remove _ h.ordered]
  split_ifs with hkk
  · rfl
  · rfl

lemma Sound.removeIfMatch (hk : t.lookup key ≠ none) :
    (t.removeIfMatch key).Sound ∧
      ∀ k, (t.removeIfMatch key).lookup k = if k = key then none else t.lookup k := by
  refine ⟨⟨ordered_remove _ h.ordered, h.cached.remove, ?_⟩, find_remove _ h.ordered⟩
  have := length_remove h.ordered hk
  show t.len - 1 = (t.root.remove privateCache key).1.toList.length
  rw [h.len_eq]
  omega

lemma Sound.drainRange (start stop : ℕ) :
    (t.drainRange start stop).Sound ∧ ∀ k, (t.drainRange start stop).lookup k =
      if start ≤ k ∧ k < stop then none else t.lookup k := by
  obtain ⟨ho, ho'⟩ := ordered_splitBefore privateCache (k := start) h.ordered
  obtain ⟨hc, hc'⟩ := splitBefore privateCache (k := start) h.cached
  obtain ⟨-, ho''⟩ := ordered_splitBefore privateCache (k := stop) ho'
  obtain ⟨-, hc''⟩ := splitBefore privateCache (k := stop) hc'
  obtain ⟨hl, hr⟩ := toList_splitBefore privateCache start t.root h.ordered
  obtain ⟨-, hr'⟩ := toList_splitBefore privateCache stop _ ho'
  have hcat : Tree.Ordered ((t.root.splitBefore privateCache start).1.toList ++
      ((t.root.splitBefore privateCache start).2.splitBefore privateCache stop).2.toList) := by
    refine pairwise_append.mpr ⟨ho, ho'', fun a ha b hb => ?_⟩
    rw [hl, mem_filter, decide_eq_true_eq] at ha
    rw [hr', hr, mem_filter, mem_filter, decide_eq_true_eq, decide_eq_true_eq] at hb
    omega
  refine ⟨sound_of_cached (by rwa [toList_merge]) (merge privateCache hc hc''), fun k => ?_⟩
  rw [lookup, PrivatePageTree.drainRange, find_merge _ hcat,
    (find_splitBefore _ h.ordered k).1, (find_splitBefore _ ho' k).2,
    (find_splitBefore _ h.ordered k).2]
  by_cases h1 : k < start <;> by_cases h2 : stop ≤ k <;>
    simp [h1, h2, lookup, Nat.not_le.mpr, Nat.not_lt.mp, not_lt]

lemma Sound.slice (start stop : ℕ) :
    (t.slice start stop).Sound ∧ ∀ k, (t.slice start stop).lookup k =
      if start ≤ k ∧ k < stop then t.lookup k else none := by
  obtain ⟨-, ho⟩ := ordered_splitBefore privateCache (k := start) h.ordered
  obtain ⟨-, hc⟩ := splitBefore privateCache (k := start) h.cached
  obtain ⟨ho', -⟩ := ordered_splitBefore privateCache (k := stop) ho
  obtain ⟨hc', -⟩ := splitBefore privateCache (k := stop) hc
  refine ⟨sound_of_cached ho' hc', fun k => ?_⟩
  rw [lookup, PrivatePageTree.slice, (find_splitBefore privateCache ho k).1,
    (find_splitBefore _ h.ordered k).2]
  by_cases h1 : start ≤ k <;> by_cases h2 : k < stop <;> simp [h1, h2, lookup]

end

end PrivatePageTree

/-! ### Sets -/

namespace PrivatePageSet

/-- Every page of the set has an offset below `n`, and its frame is one of the first `m`. -/
structure Within (s : PrivatePageSet) (n m : ℕ) : Prop where
  sound : s.pages.Sound
  key : ∀ k f, s.pages.lookup k = some f → s.keyBase ≤ k ∧ k < s.keyBase + n ∧ k < 2 ^ 64
  frame : ∀ k f, s.pages.lookup k = some f → f < m

variable {s : PrivatePageSet} {n m off : ℕ} {n' : ℕ}

lemma within_new : new.Within n m :=
  ⟨PrivatePageTree.sound_default, fun _ _ h => (by cases h), fun _ _ h => (by cases h)⟩

@[simp] lemma lookup_new : new.lookup off = none := rfl

section

variable (h : s.Within n m)

include h

lemma Within.mono {m' : ℕ} (hn : n ≤ n') (hm : m ≤ m') : s.Within n' m' :=
  ⟨h.sound, fun k f hk => by have := h.key k f hk; omega, fun k f hk => by
    have := h.frame k f hk; omega⟩

lemma Within.lookup_beyond (hn : n ≤ off) (hoff : off < 2 ^ 64) : s.lookup off = none := by
  by_contra hc
  obtain ⟨f, hf⟩ := ne_none_iff_exists'.mp hc
  obtain ⟨h1, h2, h3⟩ := h.key _ f hf
  unfold keyFor at h1 h2
  omega

lemma Within.lookup_of_empty (hz : s.pages.len = 0) : s.lookup off = none :=
  h.sound.lookup_of_empty hz _

lemma Within.of_empty (hz : s.pages.len = 0) : s.Within n' m :=
  ⟨h.sound, fun k f hk => by simp [h.sound.lookup_of_empty hz] at hk, h.frame⟩

end

lemma keyFor_eq (h : s.keyBase + n < 2 ^ 64) (hoff : off ≤ n) : s.keyFor off = s.keyBase + off :=
  Nat.mod_eq_of_lt (by omega)

/-- A slice has the pages of its part, counted from the start of that part. -/
lemma Within.sliced (h : s.Within n m) (hfit : s.keyBase + n < 2 ^ 64) {a b : ℕ} (hab : a ≤ b)
    (hb : b ≤ n) :
    (s.sliced a b a).Within (b - a) m ∧ (s.sliced a b a).keyBase = s.keyBase + a ∧
      ∀ off, off < b - a → (s.sliced a b a).lookup off = s.lookup (a + off) := by
  have hbase : (s.sliced a b a).keyBase = s.keyBase + a := Nat.mod_eq_of_lt (by omega)
  obtain ⟨hsound, hlook⟩ := h.sound.slice (s.keyFor a) (s.keyFor b)
  rw [keyFor_eq hfit (by omega), keyFor_eq hfit hb] at hlook hsound
  have hpages : (s.sliced a b a).pages = s.pages.slice (s.keyBase + a) (s.keyBase + b) := by
    rw [PrivatePageSet.sliced, keyFor_eq hfit (by omega), keyFor_eq hfit hb]
  refine ⟨⟨hpages ▸ hsound, fun k f hk => ?_, fun k f hk => ?_⟩, hbase, fun off hoff => ?_⟩
  · rw [hpages, hlook] at hk
    split_ifs at hk with hin
    omega
  · rw [hpages, hlook] at hk
    split_ifs at hk
    exact h.frame k f hk
  have hkey : (s.sliced a b a).keyFor off = s.keyBase + (a + off) := by
    rw [keyFor, hbase, Nat.mod_eq_of_lt (by omega)]
    omega
  rw [PrivatePageSet.lookup, PrivatePageSet.lookup, hkey, hpages, hlook, if_pos (by omega),
    keyFor_eq hfit (by omega)]

lemma Within.put (h : s.Within n m) (hfit : s.keyBase + n < 2 ^ 64) (hoff : off < n)
    {pages : PrivatePageTree} (hsound : pages.Sound) (hlook : ∀ k, pages.lookup k =
      if k = s.keyFor off then some m else s.pages.lookup k) :
    (⟨pages, s.keyBase⟩ : PrivatePageSet).Within n (m + 1) ∧
      ∀ off', off' < n → (⟨pages, s.keyBase⟩ : PrivatePageSet).lookup off' =
        if off' = off then some m else s.lookup off' := by
  rw [keyFor_eq hfit (by omega)] at hlook
  refine ⟨⟨hsound, fun k f hk => ?_, fun k f hk => ?_⟩, fun off' hoff' => ?_⟩
  · simp only [hlook] at hk
    split_ifs at hk
    · simp only
      omega
    · exact h.key k f hk
  · simp only [hlook] at hk
    split_ifs at hk
    · simp only [some.injEq] at hk
      omega
    · have := h.frame k f hk
      omega
  · have hkey : (⟨pages, s.keyBase⟩ : PrivatePageSet).keyFor off' = s.keyBase + off' :=
      keyFor_eq (s := ⟨pages, s.keyBase⟩) hfit (by omega)
    rw [lookup, lookup, hkey, hlook, keyFor_eq hfit (by omega)]
    congr 1
    simp

end PrivatePageSet

end TxKernel.Vm
