import Mathlib.Data.List.Basic
import Mathlib.Data.List.Pairwise
import Mathlib.Order.Lattice
import Mathlib.Algebra.Order.Ring.Nat

/-!
Path-copying treaps with natural keys. A node caches a summary of its subtree; the search order
carries every result, the priorities only decide the shape.
-/

namespace TxKernel.Treap

open List

/-- How the summary cached in a node follows from its value and its children's summaries. -/
structure Cache (ν σ : Type*) where
  empty : σ
  join : ν → σ → σ → σ

inductive Tree (ν σ : Type*)
  | nil : Tree ν σ
  | node (key : ℕ) (priority : UInt64) (value : ν) (left right : Tree ν σ) (cache : σ) : Tree ν σ
  deriving Repr, DecidableEq

namespace Tree

variable {ν σ : Type*} (C : Cache ν σ)

def cached : Tree ν σ → σ
  | .nil => C.empty
  | .node _ _ _ _ _ s => s

def build (k : ℕ) (p : UInt64) (v : ν) (l r : Tree ν σ) : Tree ν σ :=
  .node k p v l r (C.join v (cached C l) (cached C r))

def rotateRightIfNeeded : Tree ν σ → Tree ν σ
  | .node k p v (.node k' p' v' l' r' s') r s =>
    if p < p' then .node k p v (.node k' p' v' l' r' s') r s
    else build C k' p' v' l' (build C k p v r' r)
  | t => t

def rotateLeftIfNeeded : Tree ν σ → Tree ν σ
  | .node k p v l (.node k' p' v' l' r' s') s =>
    if p < p' then .node k p v l (.node k' p' v' l' r' s') s
    else build C k' p' v' (build C k p v l l') r'
  | t => t

def insert (k : ℕ) (p : UInt64) (v : ν) : Tree ν σ → Tree ν σ
  | .nil => build C k p v .nil .nil
  | .node k' p' v' l r _ =>
    if k < k' then rotateRightIfNeeded C (build C k' p' v' (insert k p v l) r)
    else rotateLeftIfNeeded C (build C k' p' v' l (insert k p v r))

def merge : Tree ν σ → Tree ν σ → Tree ν σ
  | .nil, t => t
  | .node k p v l r s, .nil => .node k p v l r s
  | .node k p v l r s, .node k' p' v' l' r' s' =>
    if p ≤ p' then build C k p v l (merge r (.node k' p' v' l' r' s'))
    else build C k' p' v' (merge (.node k p v l r s) l') r'
termination_by a b => sizeOf a + sizeOf b

def remove (k : ℕ) : Tree ν σ → Tree ν σ × Option ν
  | .nil => (.nil, none)
  | .node k' p' v' l r _ =>
    if k < k' then (build C k' p' v' (remove k l).1 r, (remove k l).2)
    else if k' < k then (build C k' p' v' l (remove k r).1, (remove k r).2)
    else (merge C l r, some v')

def splitBefore (k : ℕ) : Tree ν σ → Tree ν σ × Tree ν σ
  | .nil => (.nil, .nil)
  | .node k' p' v' l r _ =>
    if k' < k then (build C k' p' v' l (splitBefore k r).1, (splitBefore k r).2)
    else ((splitBefore k l).1, build C k' p' v' (splitBefore k l).2 r)

def floor (k : ℕ) : Tree ν σ → Option ν → Option ν
  | .nil, candidate => candidate
  | .node k' _ v' l r _, candidate =>
    if k' ≤ k then floor k r (some v') else floor k l candidate

def ceiling (k : ℕ) : Tree ν σ → Option ν → Option ν
  | .nil, candidate => candidate
  | .node k' _ v' l r _, candidate =>
    if k ≤ k' then ceiling k l (some v') else ceiling k r candidate

def find (k : ℕ) : Tree ν σ → Option ν
  | .nil => none
  | .node k' _ v' l r _ => if k < k' then find k l else if k' < k then find k r else some v'

def toList : Tree ν σ → List (ℕ × ν)
  | .nil => []
  | .node k _ v l r _ => toList l ++ (k, v) :: toList r

/-- The keys increase along the in-order list. -/
def Ordered (l : List (ℕ × ν)) : Prop := l.Pairwise fun a b => a.1 < b.1

@[simp] lemma toList_nil : toList (.nil : Tree ν σ) = [] := rfl

@[simp] lemma toList_node (k : ℕ) (p : UInt64) (v : ν) (l r : Tree ν σ) (s : σ) :
    toList (.node k p v l r s) = toList l ++ (k, v) :: toList r := rfl

@[simp] lemma toList_build (k : ℕ) (p : UInt64) (v : ν) (l r : Tree ν σ) :
    toList (build C k p v l r) = toList l ++ (k, v) :: toList r := rfl

/-! ### Ordered lists around a root -/

variable {t : Tree ν σ} {k : ℕ} {l : List (ℕ × ν)}

variable {v : ν} {p : UInt64}

lemma Ordered.root {A B : List (ℕ × ν)} (h : Ordered (A ++ (k, v) :: B)) :
    Ordered A ∧ Ordered B ∧ (∀ a ∈ A, a.1 < k) ∧ ∀ b ∈ B, k < b.1 := by
  unfold Ordered at h
  rw [pairwise_append, pairwise_cons] at h
  obtain ⟨hA, ⟨hk, hB⟩, hAB⟩ := h
  exact ⟨hA, hB, fun a ha => hAB a ha (k, v) (by simp), fun b hb => hk b hb⟩

/-! ### What the operations do to the in-order list -/

@[simp] lemma toList_rotateRightIfNeeded (t : Tree ν σ) :
    toList (rotateRightIfNeeded C t) = toList t := by
  unfold rotateRightIfNeeded
  split
  · split_ifs <;> simp
  · rfl

@[simp] lemma toList_rotateLeftIfNeeded (t : Tree ν σ) :
    toList (rotateLeftIfNeeded C t) = toList t := by
  unfold rotateLeftIfNeeded
  split
  · split_ifs <;> simp
  · rfl

lemma toList_insert (k : ℕ) (p : UInt64) (v : ν) (t : Tree ν σ) (h : Ordered (toList t)) :
    toList (insert C k p v t) =
      (toList t).filter (fun a => a.1 ≤ k) ++ (k, v) :: (toList t).filter fun a => k < a.1 := by
  induction t with
  | nil => simp [insert]
  | node k' p' v' l r s ihl ihr =>
    obtain ⟨hl, hr, hlk, hkr⟩ := h.root
    rw [insert]
    split_ifs with hk
    · have h1 : (toList r).filter (fun a => decide (a.1 ≤ k)) = [] :=
        filter_eq_nil_iff.mpr fun a ha => by have := hkr a ha; simp; omega
      have h2 : (toList r).filter (fun a => decide (k < a.1)) = toList r :=
        filter_eq_self.mpr fun a ha => by have := hkr a ha; simp; omega
      rw [toList_rotateRightIfNeeded, toList_build, ihl hl]
      simp [h1, h2, hk, Nat.not_le.mpr hk]
    · have h1 : (toList l).filter (fun a => decide (a.1 ≤ k)) = toList l :=
        filter_eq_self.mpr fun a ha => by have := hlk a ha; simp; omega
      have h2 : (toList l).filter (fun a => decide (k < a.1)) = [] :=
        filter_eq_nil_iff.mpr fun a ha => by have := hlk a ha; simp; omega
      rw [toList_rotateLeftIfNeeded, toList_build, ihr hr]
      simp [h1, h2, hk, Nat.le_of_not_lt hk]

@[simp] lemma toList_merge (a b : Tree ν σ) : toList (merge C a b) = toList a ++ toList b := by
  fun_induction merge C a b with
  | case1 t => simp
  | case2 k p v l r s => simp
  | case3 k p v l r s k' p' v' l' r' s' _ ih => simp [ih]
  | case4 k p v l r s k' p' v' l' r' s' _ ih => simp [ih]

lemma toList_remove (k : ℕ) (t : Tree ν σ) (h : Ordered (toList t)) :
    toList (remove C k t).1 = (toList t).filter fun a => a.1 ≠ k := by
  induction t with
  | nil => simp [remove]
  | node k' p' v' l r s ihl ihr =>
    obtain ⟨hl, hr, hlk, hkr⟩ := h.root
    have keepL : k' ≤ k → (toList l).filter (fun a => decide (a.1 ≠ k)) = toList l := fun hk =>
      filter_eq_self.mpr fun a ha => by have := hlk a ha; simp; omega
    have keepR : k ≤ k' → (toList r).filter (fun a => decide (a.1 ≠ k)) = toList r := fun hk =>
      filter_eq_self.mpr fun a ha => by have := hkr a ha; simp; omega
    rw [remove]
    split_ifs with h1 h2
    · rw [toList_build, ihl hl, toList_node, filter_append, filter_cons_of_pos
        (by simp; omega), keepR h1.le]
    · rw [toList_build, ihr hr, toList_node, filter_append, filter_cons_of_pos
        (by simp; omega), keepL h2.le]
    have : k' = k := by omega
    rw [toList_merge, toList_node, filter_append, filter_cons_of_neg (by simpa),
      keepL this.le, keepR this.ge]

lemma remove_snd (k : ℕ) (t : Tree ν σ) : (remove C k t).2 = find k t := by
  induction t with
  | nil => rfl
  | node k' p' v' l r s ihl ihr =>
    simp only [remove, find]
    split_ifs
    · exact ihl
    · exact ihr
    · rfl

section

variable (k : ℕ) (t : Tree ν σ) (h : Ordered (toList t))
include h

lemma toList_splitBefore :
    toList (splitBefore C k t).1 = (toList t).filter (fun a => a.1 < k) ∧
      toList (splitBefore C k t).2 = (toList t).filter fun a => k ≤ a.1 := by
  induction t with
  | nil => simp [splitBefore]
  | node k' p' v' l r s ihl ihr =>
    obtain ⟨hl, hr, hlk, hkr⟩ := h.root
    rw [splitBefore]
    split_ifs with hk
    · have h1 : (toList l).filter (fun a => decide (a.1 < k)) = toList l :=
        filter_eq_self.mpr fun a ha => by have := hlk a ha; simp; omega
      have h2 : (toList l).filter (fun a => decide (k ≤ a.1)) = [] :=
        filter_eq_nil_iff.mpr fun a ha => by have := hlk a ha; simp; omega
      simp [ihr hr, h1, h2, hk, Nat.not_le.mpr hk]
    · have h1 : (toList r).filter (fun a => decide (a.1 < k)) = [] :=
        filter_eq_nil_iff.mpr fun a ha => by have := hkr a ha; simp; omega
      have h2 : (toList r).filter (fun a => decide (k ≤ a.1)) = toList r :=
        filter_eq_self.mpr fun a ha => by have := hkr a ha; simp; omega
      simp [ihl hl, h1, h2, hk, Nat.le_of_not_lt hk]

lemma floor_eq (candidate : Option ν) :
    floor k t candidate =
      (((toList t).filter fun a => a.1 ≤ k).getLast?.map Prod.snd).or candidate := by
  induction t generalizing candidate with
  | nil => simp [floor]
  | node k' p' v' l r s ihl ihr =>
    obtain ⟨hl, hr, hlk, hkr⟩ := h.root
    rw [floor]
    split_ifs with hk
    · rw [ihr hr, toList_node, filter_append, filter_cons_of_pos (by simpa using hk),
        getLast?_append_cons, getLast?_cons]
      generalize (filter _ (toList r)).getLast? = best
      cases best <;> simp
    · have h1 : (toList r).filter (fun a => decide (a.1 ≤ k)) = [] :=
        filter_eq_nil_iff.mpr fun a ha => by have := hkr a ha; simp; omega
      rw [ihl hl]
      simp [h1, hk]

lemma ceiling_eq (candidate : Option ν) :
    ceiling k t candidate =
      (((toList t).find? fun a => k ≤ a.1).map Prod.snd).or candidate := by
  induction t generalizing candidate with
  | nil => simp [ceiling]
  | node k' p' v' l r s ihl ihr =>
    obtain ⟨hl, hr, hlk, hkr⟩ := h.root
    rw [ceiling]
    split_ifs with hk
    · rw [ihl hl, toList_node, find?_append, find?_cons_of_pos (by simpa using hk)]
      generalize find? _ (toList l) = best
      cases best <;> simp
    have h1 : (toList l).find? (fun a => decide (k ≤ a.1)) = none := by
      rw [find?_eq_none]
      intro a ha
      have := hlk a ha
      simp; omega
    rw [ihr hr, toList_node, find?_append, h1, find?_cons_of_neg (by simpa using hk),
      Option.none_or]

lemma find_eq_some (v : ν) : find k t = some v ↔ (k, v) ∈ toList t := by
  induction t with
  | nil => simp [find]
  | node k' p' v' l r s ihl ihr =>
    obtain ⟨hl, hr, hlk, hkr⟩ := h.root
    have notL : k' ≤ k → (k, v) ∉ toList l := fun hk hm => by have := hlk _ hm; simp at this; omega
    have notR : k ≤ k' → (k, v) ∉ toList r := fun hk hm => by have := hkr _ hm; simp at this; omega
    rw [find]
    split_ifs with h1 h2
    · simp [ihl hl, notR h1.le, h1.ne]
    · simp [ihr hr, notL h2.le, h2.ne']
    have : k' = k := by omega
    simp [notL this.le, notR this.ge, this, eq_comm]

lemma find_eq_none : find k t = none ↔ ∀ a ∈ toList t, a.1 ≠ k := by
  rw [Option.eq_none_iff_forall_ne_some]
  constructor
  · rintro hn ⟨k', v⟩ ha rfl
    exact hn v ((find_eq_some k' t h v).mpr ha)
  · intro hn v hv
    exact hn _ ((find_eq_some k t h v).mp hv) rfl

end

/-! ### The tree as a map -/

lemma Ordered.filter (h : Ordered l) (q : ℕ × ν → Bool) :
    Ordered (l.filter q) := List.Pairwise.filter q h

lemma Ordered.length_filter_ne (h : Ordered l) (hm : (k, v) ∈ l) :
    (l.filter fun a => a.1 ≠ k).length + 1 = l.length := by
  induction l with
  | nil => simp at hm
  | cons a l ih =>
    rw [Ordered, pairwise_cons] at h
    rcases mem_cons.mp hm with rfl | hm
    · have hrest : (l.filter fun a => decide (a.1 ≠ k)) = l :=
        filter_eq_self.mpr fun b hb => by simpa using (h.1 b hb).ne'
      rw [filter_cons_of_neg (by simp), hrest, length_cons]
    have hne : a.1 ≠ k := (h.1 _ hm).ne
    simp only [filter_cons, hne, ne_eq, not_false_eq_true, decide_true, if_true, length_cons]
    have := ih h.2 hm
    simp only [ne_eq] at this
    omega

section

variable (h : Ordered (toList t))

include h

lemma ordered_insert (hk : find k t = none) : Ordered (toList (insert C k p v t)) := by
  rw [find_eq_none k t h] at hk
  rw [toList_insert C k p v t h, Ordered, pairwise_append, pairwise_cons]
  refine ⟨h.filter _, ⟨fun a ha => by simpa using (mem_filter.mp ha).2, h.filter _⟩, ?_⟩
  intro a ha b hb
  obtain ⟨ha1, ha2⟩ := mem_filter.mp ha
  have hne := hk a ha1
  simp only [decide_eq_true_eq] at ha2
  rcases mem_cons.mp hb with rfl | hb'
  · simp only; omega
  have := (mem_filter.mp hb').2
  simp only [decide_eq_true_eq] at this
  omega

lemma find_insert (hk : find k t = none) (k' : ℕ) :
    find k' (insert C k p v t) = if k' = k then some v else find k' t := by
  ext w
  rw [find_eq_some _ _ (ordered_insert C h hk), toList_insert C k p v t h]
  rw [find_eq_none k t h] at hk
  split_ifs with he
  · subst he
    have habs : (k', w) ∉ toList t := fun hm => hk _ hm rfl
    simp [habs, eq_comm]
  rw [find_eq_some _ _ h]
  simp only [mem_append, mem_filter, mem_cons, Prod.mk.injEq, he, false_and,
    false_or, decide_eq_true_eq, ← and_or_left, and_iff_left_iff_imp]
  omega

lemma ordered_remove : Ordered (toList (remove C k t).1) := by
  rw [toList_remove C k t h]; exact h.filter _

lemma find_remove (k' : ℕ) : find k' (remove C k t).1 = if k' = k then none else find k' t := by
  ext w
  rw [find_eq_some _ _ (ordered_remove C h), toList_remove C k t h]
  split_ifs with he
  · simp [he]
  rw [find_eq_some _ _ h]
  simp [he]

lemma ordered_splitBefore :
    Ordered (toList (splitBefore C k t).1) ∧ Ordered (toList (splitBefore C k t).2) := by
  rw [(toList_splitBefore C k t h).1, (toList_splitBefore C k t h).2]
  exact ⟨h.filter _, h.filter _⟩

lemma find_splitBefore (k' : ℕ) :
    find k' (splitBefore C k t).1 = (if k' < k then find k' t else none) ∧
      find k' (splitBefore C k t).2 = if k ≤ k' then find k' t else none := by
  obtain ⟨o1, o2⟩ := ordered_splitBefore C (k := k) h
  obtain ⟨e1, e2⟩ := toList_splitBefore C k t h
  constructor
  · ext w
    rw [find_eq_some _ _ o1, e1]
    split_ifs with hk
    · rw [find_eq_some _ _ h]; simp [hk]
    · simp [hk]
  · ext w
    rw [find_eq_some _ _ o2, e2]
    split_ifs with hk
    · rw [find_eq_some _ _ h]; simp [hk]
    · simp [hk]

end

lemma find_merge {a b : Tree ν σ} (h : Ordered (toList a ++ toList b)) (k : ℕ) :
    find k (merge C a b) = (find k a).or (find k b) := by
  have ha : Ordered (toList a) := List.Pairwise.sublist (sublist_append_left ..) h
  have hb : Ordered (toList b) := List.Pairwise.sublist (sublist_append_right ..) h
  ext w
  rw [find_eq_some _ _ (by rwa [toList_merge]), toList_merge, mem_append,
    ← find_eq_some _ _ ha, ← find_eq_some _ _ hb]
  rcases hf : find k a with _ | u
  · simp
  -- a key of the left tree is not one of the right tree
  have hnone : find k b = none := (find_eq_none k b hb).mpr fun c hc he => by
    have := (pairwise_append.mp h).2.2 _ ((find_eq_some k a ha u).mp hf) c hc
    simp only [he, lt_irrefl] at this
  simp [hnone]

/-! ### The cache -/

/-- Every node caches the summary that `build` would compute. -/
def Cached : Tree ν σ → Prop
  | .nil => True
  | .node _ _ v l r s => s = C.join v (cached C l) (cached C r) ∧ Cached l ∧ Cached r

lemma Cached.build {l r : Tree ν σ} (hl : Cached C l) (hr : Cached C r) :
    Cached C (build C k p v l r) := ⟨rfl, hl, hr⟩

lemma Cached.rotateRightIfNeeded (h : Cached C t) : Cached C (rotateRightIfNeeded C t) := by
  unfold Tree.rotateRightIfNeeded
  split
  · obtain ⟨hs, ⟨hs', hl', hr'⟩, hr⟩ := h
    split_ifs
    · exact ⟨hs, ⟨hs', hl', hr'⟩, hr⟩
    · exact .build C hl' (.build C hr' hr)
  · exact h

lemma Cached.rotateLeftIfNeeded (h : Cached C t) : Cached C (rotateLeftIfNeeded C t) := by
  unfold Tree.rotateLeftIfNeeded
  split
  · obtain ⟨hs, hl, hs', hl', hr'⟩ := h
    split_ifs
    · exact ⟨hs, hl, hs', hl', hr'⟩
    · exact .build C (.build C hl hl') hr'
  · exact h

lemma Cached.insert (h : Cached C t) : Cached C (insert C k p v t) := by
  induction t with
  | nil => exact .build C trivial trivial
  | node k' p' v' l r s ihl ihr =>
    obtain ⟨-, hl, hr⟩ := h
    rw [Tree.insert]
    split_ifs
    · exact (Cached.build C (ihl hl) hr).rotateRightIfNeeded
    · exact (Cached.build C hl (ihr hr)).rotateLeftIfNeeded

lemma Cached.merge {a b : Tree ν σ} (ha : Cached C a) (hb : Cached C b) :
    Cached C (merge C a b) := by
  fun_induction Tree.merge C a b with
  | case1 t => exact hb
  | case2 k p v l r s => exact ha
  | case3 k p v l r s k' p' v' l' r' s' _ ih => exact .build C ha.2.1 (ih ha.2.2 hb)
  | case4 k p v l r s k' p' v' l' r' s' _ ih => exact .build C (ih ha hb.2.1) hb.2.2

lemma Cached.remove (h : Cached C t) : Cached C (remove C k t).1 := by
  induction t with
  | nil => trivial
  | node k' p' v' l r s ihl ihr =>
    obtain ⟨-, hl, hr⟩ := h
    rw [Tree.remove]
    split_ifs
    · exact .build C (ihl hl) hr
    · exact .build C hl (ihr hr)
    · exact .merge C hl hr

lemma Cached.splitBefore (h : Cached C t) :
    Cached C (splitBefore C k t).1 ∧ Cached C (splitBefore C k t).2 := by
  induction t with
  | nil => exact ⟨trivial, trivial⟩
  | node k' p' v' l r s ihl ihr =>
    obtain ⟨-, hl, hr⟩ := h
    rw [Tree.splitBefore]
    split_ifs
    · exact ⟨.build C hl (ihr hr).1, (ihr hr).2⟩
    · exact ⟨(ihl hl).1, .build C (ihl hl).2 hr⟩

lemma cached_eq_sum (w : ν → ℕ) (t : Tree ν ℕ) (h : Cached ⟨0, fun v a b => w v + a + b⟩ t) :
    cached ⟨0, fun v a b => w v + a + b⟩ t = ((toList t).map fun a => w a.2).sum := by
  induction t with
  | nil => rfl
  | node k p v l r s ihl ihr =>
    obtain ⟨hs, hl, hr⟩ := h
    rw [ihl hl, ihr hr] at hs
    simp only [cached, toList_node, map_append, map_cons, sum_append, sum_cons]
    simp only at hs
    omega

end Tree

end TxKernel.Treap
