import Mathlib.Data.List.Basic
import Mathlib.Order.Basic
import Mathlib.Order.Defs.LinearOrder

/-!
The order of a binary heap in a list. A heap that was changed at one position is out of order only
around it, and both directions of sifting keep this while the position moves.
-/

namespace TxKernel.HeapOrder

variable {α β : Type*} [Preorder β] (rank : α → β)

def OrderedAt (P : ℕ → Prop) (l : List α) : Prop :=
  ∀ ⦃j : ℕ⦄ ⦃x y : α⦄, 0 < j → P j → l[j]? = some x → l[(j - 1) / 2]? = some y → rank y ≤ rank x

/-- No element precedes its parent. -/
def Ordered (l : List α) : Prop := OrderedAt rank (fun _ => True) l

/-- The children of `i` do not precede the parent of `i`. -/
def Spans (l : List α) (i : ℕ) : Prop :=
  ∀ ⦃j : ℕ⦄ ⦃x y : α⦄, 0 < i → 0 < j → (j - 1) / 2 = i → l[j]? = some x →
    l[(i - 1) / 2]? = some y → rank y ≤ rank x

/-- In order but for position `i` and its parent. -/
structure UpTo (l : List α) (i : ℕ) : Prop where
  ordered : OrderedAt rank (· ≠ i) l
  spans : Spans rank l i

/-- In order but for position `i` and its children. -/
structure DownTo (l : List α) (i : ℕ) : Prop where
  ordered : OrderedAt rank (fun j => (j - 1) / 2 ≠ i) l
  spans : Spans rank l i

/-- In order but for position `i`, its parent and its children. -/
structure Around (l : List α) (i : ℕ) : Prop where
  ordered : OrderedAt rank (fun j => j ≠ i ∧ (j - 1) / 2 ≠ i) l
  spans : Spans rank l i

/-- `m` is `l` with two positions exchanged. -/
def Swapped (l m : List α) (i k : ℕ) : Prop :=
  ∀ j, m[j]? = if j = i then l[k]? else if j = k then l[i]? else l[j]?

variable {rank} {l m : List α} {i : ℕ} {x : α}

theorem Ordered.first_le (h : Ordered rank l) (hx : l[0]? = some x) (j : ℕ) {y : α}
    (hy : l[j]? = some y) : rank x ≤ rank y := by
  induction j using Nat.strongRecOn generalizing y with
  | _ j ih =>
    rcases Nat.eq_zero_or_pos j with rfl | hj
    · rw [hx] at hy
      cases hy
      exact le_rfl
    have hparent : (j - 1) / 2 < j := by omega
    have hlen : (j - 1) / 2 < l.length :=
      Nat.lt_trans hparent (List.getElem?_eq_some_iff.mp hy).1
    have hp := List.getElem?_eq_getElem hlen
    exact (ih _ hparent hp).trans (h hj trivial hy hp)

lemma Ordered.spans (h : Ordered rank l) (i : ℕ) : Spans rank l i := by
  intro j x y hi hj hji hx hy
  have hlen : i < l.length := by
    have := (List.getElem?_eq_some_iff.mp hx).1
    omega
  have hp := List.getElem?_eq_getElem hlen
  exact (h hi trivial hp hy).trans (h hj trivial hx (by rw [hji]; exact hp))

lemma UpTo.ordered_zero (h : UpTo rank l 0) : Ordered rank l :=
  fun _ _ _ hj _ => h.ordered hj (by omega)

variable {x y : α}

lemma UpTo.ordered_of_le (h : UpTo rank l i) (hx : l[i]? = some x) (hy : l[(i - 1) / 2]? = some y)
    (hle : rank y ≤ rank x) : Ordered rank l := by
  intro j u v hj _ hu hv
  by_cases hji : j = i
  · subst hji
    rw [hx] at hu
    rw [hy] at hv
    cases hu
    cases hv
    exact hle
  · exact h.ordered hj hji hu hv

/-- **One step up**: an element that precedes its parent changes places with it. -/
theorem UpTo.swap (h : UpTo rank l i) (hi : 0 < i) (hx : l[i]? = some x)
    (hy : l[(i - 1) / 2]? = some y) (hlt : rank x < rank y) (hm : Swapped l m i ((i - 1) / 2)) :
    UpTo rank m ((i - 1) / 2) := by
  have hmi : m[i]? = some y := by rw [hm, if_pos rfl, hy]
  have hmp : m[(i - 1) / 2]? = some x := by rw [hm, if_neg (by omega), if_pos rfl, hx]
  have hother : ∀ j, j ≠ i → j ≠ (i - 1) / 2 → m[j]? = l[j]? := fun j h1 h2 => by
    rw [hm, if_neg h1, if_neg h2]
  constructor
  · intro j u v hj hjp hu hv
    by_cases hji : j = i
    · subst hji
      rw [hmi] at hu
      rw [hmp] at hv
      cases hu
      cases hv
      exact hlt.le
    rw [hother j hji hjp] at hu
    by_cases hpi : (j - 1) / 2 = i
    · rw [hpi, hmi] at hv
      cases hv
      exact h.spans hi hj hpi hu hy
    by_cases hpp : (j - 1) / 2 = (i - 1) / 2
    · rw [hpp, hmp] at hv
      cases hv
      exact hlt.le.trans (h.ordered hj hji hu (by rw [hpp]; exact hy))
    · rw [hother _ hpi hpp] at hv
      exact h.ordered hj hji hu hv
  · intro j u v hp hj hjp hu hv
    have hgrand : l[((i - 1) / 2 - 1) / 2]? = some v := by
      rw [← hother _ (by omega) (by omega)]
      exact hv
    have hparent : rank v ≤ rank y := h.ordered hp (by omega) hy hgrand
    by_cases hji : j = i
    · subst hji
      rw [hmi] at hu
      cases hu
      exact hparent
    · rw [hother j hji (by omega)] at hu
      exact hparent.trans (h.ordered hj hji hu (by rw [hjp]; exact hy))

lemma DownTo.ordered_of_le (h : DownTo rank l i) (hx : l[i]? = some x)
    (hle : ∀ j y, 0 < j → (j - 1) / 2 = i → l[j]? = some y → rank x ≤ rank y) :
    Ordered rank l := by
  intro j u v hj _ hu hv
  by_cases hji : (j - 1) / 2 = i
  · rw [hji, hx] at hv
    cases hv
    exact hle j u hj hji hu
  · exact h.ordered hj hji hu hv

/-- **One step down**: an element that is preceded by a child changes places with the first of
its children. -/
theorem DownTo.swap (h : DownTo rank l i) {c : ℕ} (hc : 0 < c) (hci : (c - 1) / 2 = i)
    (hx : l[i]? = some x) (hy : l[c]? = some y) (hlt : rank y < rank x)
    (hleast : ∀ j z, 0 < j → (j - 1) / 2 = i → l[j]? = some z → rank y ≤ rank z)
    (hm : Swapped l m i c) : DownTo rank m c := by
  have hmi : m[i]? = some y := by rw [hm, if_pos rfl, hy]
  have hmc : m[c]? = some x := by rw [hm, if_neg (by omega), if_pos rfl, hx]
  have hother : ∀ j, j ≠ i → j ≠ c → m[j]? = l[j]? := fun j h1 h2 => by
    rw [hm, if_neg h1, if_neg h2]
  constructor
  · intro j u v hj hjc hu hv
    by_cases h1 : j = c
    · rw [h1, hmc] at hu
      rw [h1, hci, hmi] at hv
      cases hu
      cases hv
      exact hlt.le
    by_cases h2 : j = i
    · subst h2
      rw [hmi] at hu
      cases hu
      rw [hother _ (by omega) (by omega)] at hv
      exact h.spans hj hc hci hy hv
    rw [hother j h2 h1] at hu
    by_cases h3 : (j - 1) / 2 = i
    · rw [h3, hmi] at hv
      cases hv
      exact hleast j u hj h3 hu
    · rw [hother _ h3 hjc] at hv
      exact h.ordered hj h3 hu hv
  · intro j u v _ hj hjc hu hv
    rw [hci, hmi] at hv
    cases hv
    rw [hother j (by omega) (by omega)] at hu
    exact h.ordered hj (by omega) hu (by rw [hjc]; exact hy)

lemma Around.upTo (h : Around rank l i) (hx : l[i]? = some x) (hy : l[(i - 1) / 2]? = some y)
    (hi : 0 < i) (hlt : rank x < rank y) : UpTo rank l i := by
  refine ⟨fun j u v hj hji hu hv => ?_, h.spans⟩
  by_cases hpi : (j - 1) / 2 = i
  · rw [hpi, hx] at hv
    cases hv
    exact hlt.le.trans (h.spans hi hj hpi hu hy)
  · exact h.ordered hj ⟨hji, hpi⟩ hu hv

lemma Around.downTo (h : Around rank l i) (hle : ∀ x y, 0 < i → l[i]? = some x →
    l[(i - 1) / 2]? = some y → rank y ≤ rank x) : DownTo rank l i := by
  refine ⟨fun j u v hj hpi hu hv => ?_, h.spans⟩
  by_cases hji : j = i
  · subst hji
    exact hle u v hj hu hv
  · exact h.ordered hj ⟨hji, hpi⟩ hu hv

lemma Ordered.around (h : Ordered rank l)
    (hm : ∀ j x, j ≠ i → m[j]? = some x → l[j]? = some x) : Around rank m i := by
  refine ⟨fun j x y hj hji hx hy => h hj trivial (hm j x hji.1 hx) (hm _ y hji.2 hy), ?_⟩
  intro j x y hi hj hji hx hy
  exact h.spans i hi hj hji (hm j x (by omega) hx) (hm _ y (by omega) hy)

lemma Ordered.append (h : Ordered rank l) (x : α) : UpTo rank (l ++ [x]) l.length := by
  have hold : ∀ {j y}, j ≠ l.length → (l ++ [x])[j]? = some y → l[j]? = some y := by
    intro j y hj hy
    have hlt := (List.getElem?_eq_some_iff.mp hy).1
    rw [List.length_append, List.length_singleton] at hlt
    rwa [List.getElem?_append_left (by omega)] at hy
  refine ⟨fun j u v hj hjl hu hv => ?_, fun j u v _ hj hjl hu _ => ?_⟩
  · have hju := hold hjl hu
    have := (List.getElem?_eq_some_iff.mp hju).1
    exact h hj trivial hju (hold (by omega) hv)
  · have hlt := (List.getElem?_eq_some_iff.mp hu).1
    rw [List.length_append, List.length_singleton] at hlt
    omega

end TxKernel.HeapOrder
