import Mathlib.Data.List.Perm.Subperm
import Mathlib.Data.Int.Order.Basic

/-!
Binary trees whose nodes live in slots of an array; their meaning is the in-order list of values.
-/

namespace TxKernel.SlotTree

open List

variable {ν : Type*}

lemma filterMap_range {α β : Type*} (g : α → Option β) (l : List α) :
    ((range l.length).filterMap fun k => l[k]?.bind g) = l.filterMap g := by
  induction l with
  | nil => rfl
  | cons a l ih =>
    rw [length_cons, range_succ_eq_map, filterMap_cons, filterMap_map, filterMap_cons]
    have htail : ((fun k => (a :: l)[k]?.bind g) ∘ Nat.succ) = fun k => l[k]?.bind g := rfl
    rw [htail, ih]
    rfl

inductive IxTree (ν : Type*)
  | nil
  | node (slot : ℕ) (value : ν) (left right : IxTree ν)

namespace IxTree

def toList : IxTree ν → List ν
  | nil => []
  | node _ v l r => l.toList ++ v :: r.toList

def slots : IxTree ν → List ℕ
  | nil => []
  | node i _ l r => i :: (l.slots ++ r.slots)

def slot : IxTree ν → Option ℕ
  | nil => none
  | node i _ _ _ => some i

@[simp] lemma slot_nil : (nil : IxTree ν).slot = none := rfl

@[simp] lemma slot_node (i : ℕ) (v : ν) (l r : IxTree ν) : (node i v l r).slot = some i := rfl

def height : IxTree ν → ℤ
  | nil => 0
  | node _ _ l r => 1 + max l.height r.height

def maxEnd (stop : ν → ℕ) : IxTree ν → ℕ
  | nil => 0
  | node _ v l r => max (max (stop v) (l.maxEnd stop)) (r.maxEnd stop)

lemma height_nonneg : ∀ t : IxTree ν, 0 ≤ t.height
  | nil => le_rfl
  | node _ _ l r => by
    have := l.height_nonneg
    rw [height]
    omega

lemma length_slots (t : IxTree ν) : t.slots.length = t.toList.length := by
  induction t with
  | nil => rfl
  | node i v l r ihl ihr =>
    simp only [slots, toList, length_cons, length_append, ihl, ihr]
    omega

lemma height_le_length (t : IxTree ν) : t.height ≤ t.toList.length := by
  induction t with
  | nil => exact le_rfl
  | node i v l r ihl ihr =>
    rw [height, toList, length_append, length_cons]
    push_cast
    omega

variable {t : IxTree ν}

lemma stop_le_maxEnd (stop : ν → ℕ) {v : ν} (h : v ∈ t.toList) : stop v ≤ t.maxEnd stop := by
  induction t with
  | nil => cases h
  | node i w l r ihl ihr =>
    rw [maxEnd]
    rcases mem_append.mp h with h | h
    · have := ihl h
      omega
    rcases mem_cons.mp h with rfl | h
    · omega
    have := ihr h
    omega

lemma length_toList_le {n : ℕ} (hn : t.slots.Nodup) (hlt : ∀ i ∈ t.slots, i < n) :
    t.toList.length ≤ n := by
  rw [← length_slots]
  simpa using (subperm_of_subset hn fun i hi => mem_range.mpr (hlt i hi)).length_le

lemma exists_node_of_slot {i : ℕ} (h : t.slot = some i) : ∃ v l r, t = node i v l r := by
  cases t with
  | nil => cases h
  | node j v l r => cases h; exact ⟨v, l, r, rfl⟩

lemma exists_node_of_height (h : 0 < t.height) : ∃ i v l r, t = node i v l r := by
  cases t with
  | nil => exact absurd h (lt_irrefl _)
  | node i v l r => exact ⟨i, v, l, r, rfl⟩

end IxTree

end TxKernel.SlotTree
