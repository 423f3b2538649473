import Mathlib.Data.List.Basic
import Mathlib.Data.List.Pairwise
import Mathlib.Data.List.Nodup
import Mathlib.Order.Lattice
import Mathlib.Algebra.Order.Ring.Nat

/-!
Lists of half-open intervals that follow one another without overlap, and what they answer about a
point or a window; `splice` replaces everything that meets a window.
-/

namespace TxKernel.Spans

open List

/-- Values that occupy a nonempty half-open interval `[lo, hi)`. -/
class Span (α : Type*) where
  lo : α → ℕ
  hi : α → ℕ
  lo_lt_hi (a : α) : lo a < hi a

open TxKernel.Spans.Span

variable {α : Type*} [Span α]

/-- The intervals follow one another, so they are sorted and pairwise disjoint. -/
def Chained (l : List α) : Prop := l.Pairwise fun a b => hi a ≤ lo b

instance (l : List α) : Decidable (Chained l) := by unfold Chained; infer_instance

/-- The element whose interval holds the point `x`. -/
def covering (l : List α) (x : ℕ) : Option α := l.find? fun a => lo a ≤ x ∧ x < hi a

def lastUpTo (l : List α) (k : ℕ) : Option α := (l.filter fun a => lo a ≤ k).getLast?

def firstFrom (l : List α) (k : ℕ) : Option α := l.find? fun a => k ≤ lo a

def meeting (l : List α) (s e : ℕ) : List α := l.filter fun a => lo a < e ∧ s < hi a

def leftOf (l : List α) (s : ℕ) : List α := l.filter fun a => hi a ≤ s

def rightOf (l : List α) (e : ℕ) : List α := l.filter fun a => e ≤ lo a

/-- The list with everything that meets `[s, e)` replaced by `rs`. -/
def splice (l : List α) (s e : ℕ) (rs : List α) : List α := leftOf l s ++ rs ++ rightOf l e

/-! ### Order -/

@[simp] lemma chained_nil : Chained ([] : List α) := List.Pairwise.nil

@[simp] lemma chained_singleton (a : α) : Chained [a] := pairwise_singleton _ a

variable {l : List α} {s e : ℕ}

variable {a : α} {k : ℕ} {m rs : List α} {z : α}

lemma chained_cons :
    Chained (a :: l) ↔ (∀ b ∈ l, hi a ≤ lo b) ∧ Chained l := pairwise_cons

lemma chained_append : Chained (l ++ m) ↔ Chained l ∧ Chained m ∧ ∀ a ∈ l, ∀ b ∈ m, hi a ≤ lo b :=
  pairwise_append

lemma Chained.sublist (h : Chained m) (hs : l.Sublist m) : Chained l :=
  List.Pairwise.sublist hs h

section

variable (h : Chained l) {b : α} {x : ℕ}
include h

lemma Chained.filter (p : α → Bool) : Chained (l.filter p) :=
  List.Pairwise.filter p h

lemma Chained.lo_lt : l.Pairwise fun a b => lo a < lo b :=
  h.imp fun {a _} hab => lt_of_lt_of_le (lo_lt_hi a) hab

lemma Chained.eq_of_cover (ha : a ∈ l) (hb : b ∈ l) (hax : lo a ≤ x ∧ x < hi a)
    (hbx : lo b ≤ x ∧ x < hi b) : a = b := by
  induction l with
  | nil => simp at ha
  | cons c l ih =>
    rw [chained_cons] at h
    rcases mem_cons.mp ha with rfl | ha' <;> rcases mem_cons.mp hb with rfl | hb'
    · rfl
    · have := h.1 b hb'; omega
    · have := h.1 a ha'; omega
    · exact ih h.2 ha' hb'

lemma Chained.apart (ha : a ∈ l) (hb : b ∈ l) (hab : a ≠ b) : hi a ≤ lo b ∨ hi b ≤ lo a := by
  by_contra hc
  have h1 := lo_lt_hi a
  have h2 := lo_lt_hi b
  exact hab (h.eq_of_cover (x := max (lo a) (lo b)) ha hb (by omega) (by omega))

lemma covering_eq_some : covering l x = some a ↔ a ∈ l ∧ lo a ≤ x ∧ x < hi a := by
  constructor
  · intro hf
    have h1 := mem_of_find?_eq_some hf
    have h2 := find?_some hf
    simp only [decide_eq_true_eq] at h2
    exact ⟨h1, h2⟩
  rintro ⟨ha, hx⟩
  unfold covering
  rcases hf : l.find? (fun a => decide (lo a ≤ x ∧ x < hi a)) with _ | b
  · rw [find?_eq_none] at hf
    exact absurd hx (by simpa using hf a ha)
  have h1 := mem_of_find?_eq_some hf
  have h2 := find?_some hf
  simp only [decide_eq_true_eq] at h2
  rw [h.eq_of_cover h1 ha h2 hx]

end

lemma Chained.le_lo_of_head (h : Chained l) (hz : l.head? = some z) (he : e ≤ lo z) :
    ∀ a ∈ l, e ≤ lo a := by
  rcases l with _ | ⟨y, l⟩
  · simp at hz
  obtain rfl : y = z := by simpa using hz
  intro a ha
  rcases mem_cons.mp ha with rfl | ha'
  · exact he
  have := (chained_cons.mp h).1 a ha'
  have := lo_lt_hi y
  omega

lemma Chained.around (h : Chained (l ++ a :: m)) :
    (∀ b ∈ l, lo b < lo a) ∧ ∀ b ∈ m, lo a < lo b := by
  obtain ⟨-, hm, hl⟩ := pairwise_append.mp h.lo_lt
  exact ⟨fun b hb => hl b hb a mem_cons_self, (pairwise_cons.mp hm).1⟩

lemma Chained.filter_lo_ne (h : Chained (l ++ a :: m)) :
    (l ++ a :: m).filter (fun b => lo b ≠ lo a) = l ++ m := by
  obtain ⟨hl, hm⟩ := h.around
  rw [filter_append, filter_cons_of_neg (by simp),
    filter_eq_self.mpr fun b hb => by simpa using (hl b hb).ne,
    filter_eq_self.mpr fun b hb => by simpa using (hm b hb).ne']

lemma covering_eq_none {x : ℕ} : covering l x = none ↔ ∀ a ∈ l, ¬ (lo a ≤ x ∧ x < hi a) := by
  simp [covering, find?_eq_none]

/-! ### Cutting at a window -/

@[simp] lemma mem_meeting :
    a ∈ meeting l s e ↔ a ∈ l ∧ lo a < e ∧ s < hi a := by simp [meeting]

@[simp] lemma mem_leftOf :
    a ∈ leftOf l s ↔ a ∈ l ∧ hi a ≤ s := by simp [leftOf]

@[simp] lemma mem_rightOf :
    a ∈ rightOf l e ↔ a ∈ l ∧ e ≤ lo a := by simp [rightOf]

@[simp] lemma mem_splice :
    a ∈ splice l s e rs ↔ (a ∈ l ∧ hi a ≤ s) ∨ a ∈ rs ∨ (a ∈ l ∧ e ≤ lo a) := by
  simp [splice]

@[simp] lemma meeting_append (l m : List α) (s e : ℕ) :
    meeting (l ++ m) s e = meeting l s e ++ meeting m s e := by simp [meeting]

@[simp] lemma leftOf_append (l m : List α) (s : ℕ) :
    leftOf (l ++ m) s = leftOf l s ++ leftOf m s := by simp [leftOf]

@[simp] lemma rightOf_append (l m : List α) (e : ℕ) :
    rightOf (l ++ m) e = rightOf l e ++ rightOf m e := by simp [rightOf]

lemma cut_of_left (hse : s ≤ e) (h : ∀ a ∈ l, hi a ≤ s) :
    leftOf l s = l ∧ meeting l s e = [] ∧ rightOf l e = [] := by
  refine ⟨filter_eq_self.mpr (by simpa using h), filter_eq_nil_iff.mpr ?_,
    filter_eq_nil_iff.mpr ?_⟩
  · intro a ha
    have := h a ha
    simp; omega
  intro a ha
  have := h a ha
  have := lo_lt_hi a
  simp; omega

lemma cut_of_right (hse : s ≤ e) (h : ∀ a ∈ l, e ≤ lo a) :
    leftOf l s = [] ∧ meeting l s e = [] ∧ rightOf l e = l := by
  refine ⟨filter_eq_nil_iff.mpr ?_, filter_eq_nil_iff.mpr ?_, filter_eq_self.mpr (by simpa using h)⟩
  · intro a ha
    have := h a ha
    have := lo_lt_hi a
    simp; omega
  · intro a ha
    have := h a ha
    simp; omega

lemma Chained.cut (h : Chained l) (hse : s < e) :
    l = leftOf l s ++ meeting l s e ++ rightOf l e := by
  induction l with
  | nil => rfl
  | cons a l ih =>
    rw [chained_cons] at h
    rw [← singleton_append, leftOf_append, meeting_append, rightOf_append]
    rcases Nat.lt_or_ge s (hi a) with hs | hs
    · have hl : leftOf l s = [] := filter_eq_nil_iff.mpr fun b hb => by
        have := h.1 b hb
        have := lo_lt_hi b
        simp; omega
      rcases Nat.lt_or_ge (lo a) e with he | he
      · have h1 : leftOf [a] s = [] := by simp [leftOf]; omega
        have h2 : meeting [a] s e = [a] := by simp [meeting, hs, he]
        have h3 : rightOf [a] e = [] := by simp [rightOf]; omega
        have := ih h.2
        rw [hl, nil_append] at this
        rw [h1, h2, h3, hl]
        simpa using this
      · rw [← leftOf_append, ← meeting_append, ← rightOf_append, singleton_append]
        obtain ⟨h1, h2, h3⟩ := cut_of_right hse.le
          ((chained_cons.mpr h).le_lo_of_head rfl he)
        rw [h1, h2, h3]; simp
    · obtain ⟨h1, h2, h3⟩ := cut_of_left hse.le (l := [a]) (by simpa using hs)
      have := ih h.2
      rw [h1, h2, h3]
      simpa using this

lemma Chained.filter_not_meeting (h : Chained l) (hse : s < e) :
    (l.filter fun a => ¬ (lo a < e ∧ s < hi a)) = leftOf l s ++ rightOf l e := by
  conv_lhs => rw [h.cut hse]
  rw [filter_append, filter_append]
  have h1 : (leftOf l s).filter (fun a => ¬ (lo a < e ∧ s < hi a)) = leftOf l s :=
    filter_eq_self.mpr fun a ha => by
      have := (mem_leftOf.mp ha).2
      simp; omega
  have h2 : (meeting l s e).filter (fun a => ¬ (lo a < e ∧ s < hi a)) = [] :=
    filter_eq_nil_iff.mpr fun a ha => by
      have := (mem_meeting.mp ha).2
      simp; omega
  have h3 : (rightOf l e).filter (fun a => ¬ (lo a < e ∧ s < hi a)) = rightOf l e :=
    filter_eq_self.mpr fun a ha => by
      have := (mem_rightOf.mp ha).2
      simp; omega
  rw [h1, h2, h3, append_nil]

/-! ### Replacements -/

def Within (l : List α) (s e : ℕ) (r : α) : Prop :=
  ∀ x, lo r ≤ x → x < hi r → (s ≤ x ∧ x < e) ∨ ∃ a ∈ meeting l s e, lo a ≤ x ∧ x < hi a

/-- Replacements for the window: chained, and inside the window and what meets it. -/
structure Replacing (l : List α) (s e : ℕ) (rs : List α) : Prop where
  chained : Chained rs
  within : ∀ r ∈ rs, Within l s e r

lemma Replacing.nil (l : List α) (s e : ℕ) : Replacing l s e [] :=
  ⟨chained_nil, by simp⟩

lemma Replacing.self (l : List α) (a : α) : Replacing l (lo a) (hi a) [a] := by
  refine ⟨chained_singleton a, fun r hr x h1 h2 => .inl ?_⟩
  rw [mem_singleton] at hr
  subst hr
  exact ⟨h1, h2⟩

section

variable (h : Chained l) {r b : α} (hr : Within l s e r)
include h hr

lemma Within.side (hb : b ∈ l) {x : ℕ} (h1 : lo r ≤ x) (h2 : x < hi r) :
    (hi b ≤ s → hi b ≤ x) ∧ (e ≤ lo b → x < lo b) := by
  rcases hr x h1 h2 with hw | ⟨a, ha, hax⟩
  · omega
  obtain ⟨hal, hae, has⟩ := mem_meeting.mp ha
  have hlt := lo_lt_hi b
  by_cases hne : a = b
  · subst hne; omega
  · rcases h.apart hal hb hne with hab | hab <;> omega

lemma Within.right_of_left (hb : b ∈ leftOf l s) : hi b ≤ lo r :=
  (hr.side h (mem_leftOf.mp hb).1 le_rfl (lo_lt_hi r)).1 (mem_leftOf.mp hb).2

lemma Within.left_of_right (hb : b ∈ rightOf l e) : hi r ≤ lo b := by
  have hlt := lo_lt_hi r
  have := (hr.side h (mem_rightOf.mp hb).1 (x := hi r - 1) (by omega) (by omega)).2
    (mem_rightOf.mp hb).2
  omega

end

lemma Chained.splice (h : Chained l) (hse : s ≤ e) (hr : Replacing l s e rs) :
    Chained (splice l s e rs) := by
  unfold Spans.splice
  rw [chained_append, chained_append]
  refine ⟨⟨h.filter _, hr.chained, fun b hb r hr' => (hr.within r hr').right_of_left h hb⟩,
    h.filter _, ?_⟩
  intro a ha b hb
  rcases mem_append.mp ha with ha' | ha'
  · have := (mem_leftOf.mp ha').2
    have := (mem_rightOf.mp hb).2
    omega
  · exact (hr.within a ha').left_of_right h hb

lemma merge_left (A B rs : List α) (h : ∀ a ∈ A, ∀ r ∈ rs, lo a ≤ lo r) :
    (A ++ B).merge rs (fun a b => lo a ≤ lo b) = A ++ B.merge rs (fun a b => lo a ≤ lo b) := by
  induction A with
  | nil => rfl
  | cons a A ih =>
    rcases rs with _ | ⟨r, rs⟩
    · simp
    have hr : lo a ≤ lo r := h a (by simp) r (by simp)
    rw [cons_append, cons_merge_cons_pos _ _ _ (by simpa using hr),
      ih fun b hb => h b (by simp [hb]), cons_append]

lemma merge_right (B rs : List α) (h : ∀ b ∈ B, ∀ r ∈ rs, lo r < lo b) :
    B.merge rs (fun a b => lo a ≤ lo b) = rs ++ B := by
  rcases B with _ | ⟨b, B⟩
  · simp
  induction rs with
  | nil => simp
  | cons r rs ih =>
    have hr : lo r < lo b := h b (by simp) r (by simp)
    rw [cons_merge_cons_neg _ _ _ (by simpa using hr),
      ih fun c hc q hq => h c hc q (by simp [hq]), cons_append]

/-- **Splicing is merging.** The survivors merged with the replacements in start order. -/
theorem Chained.merge_eq_splice (h : Chained l) (hse : s < e) (hr : Replacing l s e rs) :
    (l.filter fun a => ¬ (lo a < e ∧ s < hi a)).merge rs (fun a b => lo a ≤ lo b) =
      Spans.splice l s e rs := by
  rw [h.filter_not_meeting hse, merge_left, merge_right, Spans.splice, append_assoc]
  · intro b hb r hr'
    exact lt_of_lt_of_le (lo_lt_hi r) ((hr.within r hr').left_of_right h hb)
  · intro a ha r hr'
    exact (lo_lt_hi a).le.trans ((hr.within r hr').right_of_left h ha)

/-! ### Queries on a list cut at one element -/

lemma lastUpTo_append (l m : List α) (k : ℕ) :
    lastUpTo (l ++ m) k = (lastUpTo m k).or (lastUpTo l k) := by
  simp [lastUpTo, getLast?_append]

lemma firstFrom_append (l m : List α) (k : ℕ) :
    firstFrom (l ++ m) k = (firstFrom l k).or (firstFrom m k) := by
  simp [firstFrom, find?_append]

lemma lastUpTo_eq_none (h : ∀ a ∈ l, k < lo a) : lastUpTo l k = none := by
  have : (l.filter fun a => lo a ≤ k) = [] :=
    filter_eq_nil_iff.mpr fun a ha => by simpa using h a ha
  simp [lastUpTo, this]

lemma lastUpTo_eq_getLast (h : ∀ a ∈ l, lo a ≤ k) : lastUpTo l k = l.getLast? := by
  have : (l.filter fun a => lo a ≤ k) = l := filter_eq_self.mpr (by simpa using h)
  simp [lastUpTo, this]

lemma firstFrom_eq_none (h : ∀ a ∈ l, lo a < k) : firstFrom l k = none := by
  simpa [firstFrom, find?_eq_none] using h

lemma firstFrom_eq_head (h : ∀ a ∈ l, k ≤ lo a) : firstFrom l k = l.head? := by
  rcases l with _ | ⟨a, l⟩
  · rfl
  have := h a (by simp)
  simp [firstFrom, this]

lemma Chained.lastUpTo_eq_some (h : Chained l) (ha : a ∈ l) (hno : ∀ b ∈ l, lo b ≠ hi a) :
    lastUpTo l (hi a) = some a := by
  obtain ⟨l, m, rfl⟩ := append_of_mem ha
  have hm := (chained_cons.mp (chained_append.mp h).2.1).1
  have hnone : lastUpTo m (hi a) = none := lastUpTo_eq_none fun b hb =>
    lt_of_le_of_ne (hm b hb) (hno b (by simp [hb])).symm
  rw [lastUpTo_append, ← singleton_append, lastUpTo_append, hnone]
  simp [lastUpTo, (lo_lt_hi a).le]

lemma Chained.firstFrom_eq_some (h : Chained l) (ha : a ∈ l) : firstFrom l (lo a) = some a := by
  obtain ⟨l, m, rfl⟩ := append_of_mem ha
  have hl : firstFrom l (lo a) = none := firstFrom_eq_none fun b hb =>
    lt_of_lt_of_le (lo_lt_hi b) ((chained_append.mp h).2.2 b hb a (by simp))
  rw [firstFrom_append, hl]
  simp [firstFrom]

lemma Chained.covering_eq_lastUpTo (h : Chained l) (x : ℕ) :
    covering l x = (lastUpTo l x).filter fun a => lo a ≤ x ∧ x < hi a := by
  induction l with
  | nil => rfl
  | cons a l ih =>
    rw [chained_cons] at h
    have hap : lastUpTo (a :: l) x = (lastUpTo l x).or (lastUpTo [a] x) :=
      lastUpTo_append [a] l x
    rw [hap]
    rcases Nat.lt_or_ge x (hi a) with hx | hx
    · have hnone : lastUpTo l x = none := lastUpTo_eq_none fun b hb => by
        have := h.1 b hb; omega
      have hcov : covering l x = none := covering_eq_none.mpr fun b hb => by
        have := h.1 b hb; omega
      rw [hnone, Option.none_or]
      by_cases ha : lo a ≤ x
      · simp [covering, lastUpTo, Option.filter, ha, hx]
      have hcons : covering (a :: l) x = covering l x := by
        unfold covering; rw [find?_cons_of_neg (by simp; omega)]
      rw [hcons, hcov]
      simp [lastUpTo, ha]
    · have hcons : covering (a :: l) x = covering l x := by
        unfold covering; rw [find?_cons_of_neg (by simp; omega)]
      rw [hcons, ih h.2]
      rcases lastUpTo l x with _ | b
      · by_cases ha : lo a ≤ x <;> simp [lastUpTo, ha, Option.filter, hx]
      · simp

/-! ### Cutting by start -/

lemma Chained.split_lo (h : Chained l) (k : ℕ) :
    l = (l.filter fun a => lo a < k) ++ l.filter fun a => k ≤ lo a := by
  induction l with
  | nil => rfl
  | cons a l ih =>
    by_cases ha : lo a < k
    · rw [filter_cons_of_pos (by simpa using ha),
        filter_cons_of_neg (by simpa using ha), cons_append, ← ih (chained_cons.mp h).2]
    have hge := h.le_lo_of_head rfl (not_lt.mp ha)
    have h1 : (a :: l).filter (fun a => decide (lo a < k)) = [] :=
      filter_eq_nil_iff.mpr fun b hb => by simpa using hge b hb
    have h2 : (a :: l).filter (fun a => decide (k ≤ lo a)) = a :: l :=
      filter_eq_self.mpr fun b hb => by simpa using hge b hb
    rw [h1, h2, nil_append]

lemma Chained.takeWhile_eq_filter (h : Chained l) {q : α → Bool}
    (hq : ∀ a b, lo a < lo b → q b = true → q a = true) : l.takeWhile q = l.filter q := by
  induction l with
  | nil => rfl
  | cons a l ih =>
    rw [chained_cons] at h
    rcases ha : q a with _ | _
    · rw [takeWhile_cons_of_neg (by simp [ha]), filter_cons_of_neg (by simp [ha]),
        eq_comm, filter_eq_nil_iff]
      intro b hb hqb
      have := hq a b (lt_of_lt_of_le (lo_lt_hi a) (h.1 b hb)) hqb
      simp [ha] at this
    · rw [takeWhile_cons_of_pos ha, filter_cons_of_pos ha, ih h.2]

lemma Chained.hi_le_of_getLast (h : Chained l) (hz : l.getLast? = some z) (hs : hi z ≤ s) :
    ∀ a ∈ l, hi a ≤ s := by
  obtain ⟨init, rfl⟩ := getLast?_eq_some_iff.mp hz
  intro a ha
  rcases mem_append.mp ha with ha' | ha'
  · have := (chained_append.mp h).2.2 a ha' z (by simp)
    have := lo_lt_hi z
    omega
  · rw [mem_singleton.mp ha']; exact hs

lemma Chained.meeting_before (h : Chained l) (hse : s < e) (hl : ∀ a ∈ l, lo a < s) :
    meeting l s e = (l.getLast?.filter fun a => s < hi a).toList := by
  rcases eq_nil_or_concat l with rfl | ⟨init, z, rfl⟩
  · rfl
  rw [concat_eq_append, chained_append] at h
  have hz : lo z < s := hl z (by simp)
  have h1 : meeting init s e = [] := filter_eq_nil_iff.mpr fun a ha => by
    have := h.2.2 a ha z (by simp)
    simp; omega
  have hze : lo z < e := by omega
  rw [concat_eq_append, meeting_append, h1, nil_append, getLast?_concat]
  by_cases hs : s < hi z <;> simp [meeting, hze, hs, Option.filter]

lemma Chained.leftOf_before (h : Chained l) (hl : ∀ a ∈ l, lo a < s) :
    leftOf l s = if ∃ z, l.getLast? = some z ∧ s < hi z then l.dropLast else l := by
  rcases eq_nil_or_concat l with rfl | ⟨init, z, rfl⟩
  · simp [leftOf]
  rw [concat_eq_append, chained_append] at h
  have hz : lo z < s := hl z (by simp)
  have h1 : leftOf init s = init := filter_eq_self.mpr fun a ha => by
    have := h.2.2 a ha z (by simp)
    simp; omega
  rw [concat_eq_append, leftOf_append, h1]
  by_cases hs : s < hi z
  · simp [leftOf, hs, Nat.not_le.mpr hs]
  · simp [leftOf, hs, Nat.le_of_not_lt hs]

lemma meeting_from (hl : ∀ a ∈ l, s ≤ lo a) : meeting l s e = l.filter fun a => lo a < e := by
  refine filter_congr fun a ha => ?_
  have := hl a ha
  have := lo_lt_hi a
  simp; omega

lemma Chained.meeting_eq (h : Chained l) (hse : s < e) :
    meeting l s e =
      ((l.filter fun a => lo a < s).getLast?.filter fun a => s < hi a).toList ++
        l.filter fun a => s ≤ lo a ∧ lo a < e := by
  conv_lhs => rw [h.split_lo s, meeting_append]
  rw [(h.filter _).meeting_before hse (by simp), meeting_from (s := s) (by simp),
    filter_filter]
  congr 1
  exact filter_congr fun a _ => by simp [Bool.and_comm]

lemma Chained.splice_one (h : Chained l) {b : α} (hb : ∀ a ∈ l, ¬ (lo a < hi b ∧ lo b < hi a)) :
    (l.filter fun a => lo a ≤ lo b) = leftOf l (lo b) ∧
      (l.filter fun a => lo b < lo a) = rightOf l (hi b) ∧
      Chained (Spans.splice l (lo b) (hi b) [b]) := by
  have hlt := lo_lt_hi b
  refine ⟨filter_congr fun a ha => ?_, filter_congr fun a ha => ?_, ?_⟩
  · have := hb a ha
    have := lo_lt_hi a
    simp; omega
  · have := hb a ha
    have := lo_lt_hi a
    simp; omega
  · exact h.splice hlt.le (.self l b)

end TxKernel.Spans
