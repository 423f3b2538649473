import TxKernel.Library.Spans

/-!
Rewriting the elements of a chained list into pieces of themselves. What the list says about a point
is read through the element that holds it, so it is enough to compare one element with its pieces.
-/

namespace TxKernel.Spans

open TxKernel.Spans.Span List Option

variable {α β γ : Type*}

/-- `rs` is made of lists of pieces, one for each element of `l`, in order. -/
inductive Pieces (P : α → List α → Prop) : List α → List α → Prop
  | nil : Pieces P [] []
  | cons {a : α} {as l rs : List α} : P a as → Pieces P l rs → Pieces P (a :: l) (as ++ rs)

namespace Pieces

variable {P Q : α → List α → Prop} {l m rs qs : List α}

lemma map (g : α → α) (l : List α) : Pieces (fun a as => as = [g a]) l (l.map g) := by
  induction l with
  | nil => exact .nil
  | cons a l ih =>
    rw [map_cons, ← singleton_append]
    exact .cons rfl ih

lemma imp (h : Pieces P l rs) (hPQ : ∀ a ∈ l, ∀ as, P a as → Q a as) : Pieces Q l rs := by
  induction h with
  | nil => exact .nil
  | cons ha _ ih =>
    exact .cons (hPQ _ (by simp) _ ha) (ih fun a hal => hPQ a (by simp [hal]))

lemma exists_pieces (h : Pieces P l rs) {a : α} (ha : a ∈ l) : ∃ as, P a as ∧ ∀ b ∈ as, b ∈ rs := by
  induction h with
  | nil => simp at ha
  | @cons c cs l rs hc _ ih =>
    rcases mem_cons.mp ha with rfl | ha
    · exact ⟨cs, hc, fun b hb => by simp [hb]⟩
    obtain ⟨as, hP, has⟩ := ih ha
    exact ⟨as, hP, fun b hb => by simp [has b hb]⟩

lemma exists_of_mem (h : Pieces P l rs) {b : α} (hb : b ∈ rs) : ∃ a ∈ l, ∃ as, P a as ∧ b ∈ as := by
  induction h with
  | nil => simp at hb
  | cons ha _ ih =>
    rcases mem_append.mp hb with hb | hb
    · exact ⟨_, by simp, _, ha, hb⟩
    obtain ⟨a, hal, as, hP, hbas⟩ := ih hb
    exact ⟨a, by simp [hal], as, hP, hbas⟩

end Pieces

/-! ### Rewriting with a state passed along -/

/-- As `Pieces`, by steps that take a state to the next. -/
inductive Threaded {σ : Type*} (step : σ → α → σ → List α → Prop) :
    σ → List α → σ → List α → Prop
  | nil {s : σ} : Threaded step s [] s []
  | cons {s s1 s2 : σ} {a : α} {as l rs : List α} : step s a s1 as →
      Threaded step s1 l s2 rs → Threaded step s (a :: l) s2 (as ++ rs)

section

variable {σ τ ε : Type*} {step : σ → α → σ → List α → Prop} {l rs : List α}

lemma Threaded.pieces {s s' : σ} (h : Threaded step s l s' rs) :
    Pieces (fun a as => ∃ s s', step s a s' as) l rs := by
  induction h with
  | nil => exact .nil
  | cons hstep _ ih => exact .cons ⟨_, _, hstep⟩ ih

variable {f : τ → α → Except ε τ} {t t' : τ}

lemma threaded_of_foldlM (state : τ → σ) (out : τ → List α)
    (hf : ∀ t, ∀ a ∈ l, ∀ t', f t a = .ok t' →
      ∃ as, step (state t) a (state t') as ∧ out t' = out t ++ as)
    (h : l.foldlM f t = .ok t') :
    ∃ rs, Threaded step (state t) l (state t') rs ∧ out t' = out t ++ rs := by
  induction l generalizing t with
  | nil =>
    cases h
    exact ⟨[], .nil, by simp⟩
  | cons a l ih =>
    rw [foldlM_cons] at h
    rcases hft : f t a with err | t1
    · rw [hft] at h; cases h
    rw [hft] at h
    obtain ⟨as, hstep, hout⟩ := hf t a (by simp) t1 hft
    obtain ⟨rs, hrest, hrs⟩ := ih (fun t a ha => hf t a (by simp [ha])) h
    exact ⟨as ++ rs, .cons hstep hrest, by rw [hrs, hout, append_assoc]⟩

lemma error_of_foldlM {err : ε} (h : l.foldlM f t = .error err) :
    ∃ a ∈ l, ∃ t, f t a = .error err := by
  induction l generalizing t with
  | nil => cases h
  | cons a l ih =>
    rw [foldlM_cons] at h
    rcases hft : f t a with err' | t1
    · rw [hft] at h
      cases h
      exact ⟨a, by simp, t, hft⟩
    · rw [hft] at h
      obtain ⟨b, hb, t2, hb2⟩ := ih h
      exact ⟨b, by simp [hb], t2, hb2⟩

lemma count_of_foldlM (n : τ → ℕ) (hf : ∀ t a t', f t a = .ok t' → n t' = n t + 1)
    (h : l.foldlM f t = .ok t') : n t' = n t + l.length := by
  induction l generalizing t with
  | nil => cases h; rfl
  | cons a l ih =>
    rw [foldlM_cons] at h
    rcases hft : f t a with err | t1
    · rw [hft] at h; cases h
    rw [hft] at h
    rw [ih h, hf t a t1 hft, length_cons]
    omega

end

variable [Span α] {l : List α}

/-- The pieces are chained and lie in the element they stand for. -/
structure PiecesOf (a : α) (as : List α) : Prop where
  chained : Chained as
  inside : ∀ b ∈ as, lo a ≤ lo b ∧ hi b ≤ hi a

/-- What the element that holds `x` says about `x`. -/
def view (f : α → ℕ → β) (l : List α) (x : ℕ) : Option β := (covering l x).map fun a => f a x

namespace Pieces

variable {P : α → List α → Prop} {l rs : List α}

lemma chained_of (h : Pieces P l rs) (hl : Chained l) (hP : ∀ a as, P a as → Chained as)
    (hcross : ∀ a as b bs, P a as → P b bs → hi a ≤ lo b → ∀ c ∈ as, ∀ d ∈ bs, hi c ≤ lo d) :
    Chained rs := by
  induction h with
  | nil => simp
  | cons ha hrest ih =>
    rw [chained_cons] at hl
    rw [chained_append]
    refine ⟨hP _ _ ha, ih hl.2, fun c hc d hd => ?_⟩
    obtain ⟨b, hb, bs, hPb, hdb⟩ := hrest.exists_of_mem hd
    exact hcross _ _ _ _ ha hPb (hl.1 b hb) c hc d hdb

lemma chained (h : Pieces P l rs) (hl : Chained l) (hP : ∀ a as, P a as → PiecesOf a as) :
    Chained rs := by
  refine h.chained_of hl (fun a as ha => (hP a as ha).chained) ?_
  intro a as b bs ha hb hab c hc d hd
  have h1 := ((hP a as ha).inside c hc).2
  have h2 := ((hP b bs hb).inside d hd).1
  omega

variable {x : ℕ}

lemma covering_none (h : Pieces P l rs) (hP : ∀ a as, P a as → PiecesOf a as)
    (hx : covering l x = none) : covering rs x = none := by
  rw [covering_eq_none] at hx ⊢
  intro b hb hbx
  obtain ⟨a, ha, as, hPa, hba⟩ := h.exists_of_mem hb
  have := (hP _ _ hPa).inside b hba
  exact hx a ha (by omega)

lemma covering_some (h : Pieces P l rs) (hl : Chained l) (hP : ∀ a as, P a as → PiecesOf a as)
    {a : α} (hx : covering l x = some a) : ∃ as, P a as ∧ covering rs x = covering as x := by
  induction h with
  | nil => simp [covering] at hx
  | @cons c cs l rs hc hrest ih =>
    obtain ⟨hmem, hax⟩ := (covering_eq_some hl).mp hx
    rw [chained_cons] at hl
    have happ : covering (cs ++ rs) x = (covering cs x).or (covering rs x) := by
      simp [covering, find?_append]
    rw [happ]
    rcases mem_cons.mp hmem with rfl | hal
    · refine ⟨cs, hc, ?_⟩
      have : covering l x = none := covering_eq_none.mpr fun b hb hbx => by
        have := hl.1 b hb; omega
      rw [hrest.covering_none hP this, or_none]
    have hcs : covering cs x = none := covering_eq_none.mpr fun b hb hbx => by
      have := (hP _ _ hc).inside b hb
      have := hl.1 a hal
      omega
    obtain ⟨as, hPa, has⟩ := ih hl.2 ((covering_eq_some hl.2).mpr ⟨hal, hax⟩)
    exact ⟨as, hPa, by rw [hcs, none_or, has]⟩

end Pieces

theorem view_pieces {P : α → List α → Prop} {rs : List α} {f : α → ℕ → β} {g : α → ℕ → γ}
    {φ : ℕ → β → Option γ} (hl : Chained l) (h : Pieces P l rs)
    (hP : ∀ a as, P a as → PiecesOf a as)
    (hin : ∀ a ∈ l, ∀ as, P a as → ∀ x, lo a ≤ x → x < hi a → view g as x = φ x (f a x)) (x : ℕ) :
    view g rs x = (view f l x).bind (φ x) := by
  rcases hc : covering l x with _ | a
  · simp [view, h.covering_none hP hc, hc]
  obtain ⟨hal, hax⟩ := (covering_eq_some hl).mp hc
  obtain ⟨as, hPa, has⟩ := h.covering_some hl hP hc
  have hv : view f l x = some (f a x) := by simp [view, hc]
  rw [hv, bind_some, ← hin a hal as hPa x hax.1 hax.2, view, view, has]

lemma view_perm_append {m n : List α} {g : α → ℕ → β} (hl : Chained l) (hm : Chained m)
    (hn : Chained n) (h : l.Perm (m ++ n)) (x : ℕ) :
    view g l x = (view g m x).or (view g n x) := by
  have hmem : ∀ a, a ∈ l ↔ a ∈ m ∨ a ∈ n := fun a => by rw [h.mem_iff, mem_append]
  rcases hcm : covering m x with _ | a
  · rcases hcn : covering n x with _ | b
    · have : covering l x = none := covering_eq_none.mpr fun a ha => by
        rcases (hmem a).mp ha with ha | ha
        · exact covering_eq_none.mp hcm a ha
        · exact covering_eq_none.mp hcn a ha
      simp [view, hcm, hcn, this]
    · obtain ⟨hb, hbx⟩ := (covering_eq_some hn).mp hcn
      simp [view, hcm, hcn, (covering_eq_some hl).mpr ⟨(hmem b).mpr (.inr hb), hbx⟩]
  · obtain ⟨ha, hax⟩ := (covering_eq_some hm).mp hcm
    simp [view, hcm, (covering_eq_some hl).mpr ⟨(hmem a).mpr (.inl ha), hax⟩]

/-! ### Splicing pieces in -/

section

variable {P : α → List α → Prop} {l rs : List α} {s e : ℕ} {a b : α}

lemma Pieces.replacing (h : Pieces P (meeting l s e) rs) (hl : Chained l)
    (hP : ∀ a as, P a as → PiecesOf a as) : Replacing l s e rs := by
  refine ⟨h.chained (hl.filter _) hP, fun b hb x h1 h2 => ?_⟩
  obtain ⟨a, ha, as, hPa, hba⟩ := h.exists_of_mem hb
  have := (hP _ _ hPa).inside b hba
  exact .inr ⟨a, ha, by omega⟩

lemma covering_splice_outside (hl : Chained l) (hse : s ≤ e) (hr : Replacing l s e rs)
    (hx : covering l x = some a) (ha : ¬ (lo a < e ∧ s < hi a)) :
    covering (splice l s e rs) x = some a := by
  obtain ⟨hal, hax⟩ := (covering_eq_some hl).mp hx
  refine (covering_eq_some (hl.splice hse hr)).mpr ⟨mem_splice.mpr ?_, hax⟩
  rcases Nat.lt_or_ge (lo a) e with h | h
  · exact .inl ⟨hal, by omega⟩
  · exact .inr (.inr ⟨hal, h⟩)

lemma covering_splice_inside (hl : Chained l) (hr : Replacing l s e rs) (hse : s ≤ e)
    (hx : (s ≤ x ∧ x < e) ∨ ∃ a ∈ meeting l s e, lo a ≤ x ∧ x < hi a) :
    covering (splice l s e rs) x = covering rs x := by
  have hsp := hl.splice hse hr
  -- nothing left or right of the window holds the point
  have hout : ∀ b ∈ l, hi b ≤ s ∨ e ≤ lo b → ¬ (lo b ≤ x ∧ x < hi b) := by
    intro b hb hside hbx
    rcases hx with hw | ⟨a, ha, hax⟩
    · omega
    obtain ⟨hal, h1, h2⟩ := mem_meeting.mp ha
    obtain rfl := hl.eq_of_cover hal hb hax hbx
    omega
  rcases hc : covering rs x with _ | b
  · rw [covering_eq_none] at hc ⊢
    intro b hb hbx
    rcases mem_splice.mp hb with ⟨hbl, h1⟩ | hbr | ⟨hbl, h1⟩
    · exact hout b hbl (.inl h1) hbx
    · exact hc b hbr hbx
    · exact hout b hbl (.inr h1) hbx
  · obtain ⟨hb, hbx⟩ := (covering_eq_some hr.chained).mp hc
    exact (covering_eq_some hsp).mpr ⟨mem_splice.mpr (.inr (.inl hb)), hbx⟩

lemma covering_splice_none (hr : Replacing l s e rs) (hx : covering l x = none)
    (hw : ¬ (s ≤ x ∧ x < e)) : covering (splice l s e rs) x = none := by
  rw [covering_eq_none] at hx ⊢
  intro b hb hbx
  rcases mem_splice.mp hb with ⟨hbl, -⟩ | hbr | ⟨hbl, -⟩
  · exact hx b hbl hbx
  · rcases hr.within b hbr x hbx.1 hbx.2 with h | ⟨a, ha, hax⟩
    · exact hw h
    · exact hx a (mem_meeting.mp ha).1 hax
  · exact hx b hbl hbx

lemma splice_widen (hl : Chained l) (hse : s < e) (ha : a ∈ l) (h1 : lo a ≤ s) (h2 : e ≤ hi a) :
    splice l s e rs = splice l (lo a) (hi a) rs := by
  have hside : ∀ b ∈ l, (hi b ≤ s ↔ hi b ≤ lo a) ∧ (e ≤ lo b ↔ hi a ≤ lo b) := fun b hb => by
    have hlt := lo_lt_hi b
    by_cases hba : b = a
    · subst hba; omega
    have := hl.apart hb ha hba
    omega
  have hleft : leftOf l s = leftOf l (lo a) :=
    filter_congr fun b hb => by simpa using (hside b hb).1
  have hright : rightOf l e = rightOf l (hi a) :=
    filter_congr fun b hb => by simpa using (hside b hb).2
  rw [splice, splice, hleft, hright]

lemma splice_splice (hse : s < e) (q : List α) :
    splice l s e (splice rs s e q) = splice (splice l s e rs) s e q := by
  obtain ⟨h1, -, h2⟩ := cut_of_left hse.le fun a (ha : a ∈ leftOf l s) => (mem_leftOf.mp ha).2
  obtain ⟨h3, -, h4⟩ := cut_of_right hse.le fun a (ha : a ∈ rightOf l e) => (mem_rightOf.mp ha).2
  simp [splice, h1, h2, h3, h4]

lemma Chained.perm_splice_one (h : Chained l) (hfree : ∀ a ∈ l, ¬ (lo a < hi b ∧ lo b < hi a)) :
    (Spans.splice l (lo b) (hi b) [b]).Perm (l ++ [b]) := by
  have hcut := h.cut (lo_lt_hi b)
  have hnil : meeting l (lo b) (hi b) = [] :=
    filter_eq_nil_iff.mpr fun a ha => by simpa using hfree a ha
  rw [hnil, append_nil] at hcut
  conv_rhs => rw [hcut]
  rw [Spans.splice, append_assoc, append_assoc]
  exact List.Perm.append_left _ perm_append_comm

lemma mergeSort_window (hrs : Chained rs) {q : α} (hfree : meeting rs (lo q) (hi q) = []) :
    (rs ++ [q]).mergeSort (fun a b => lo a ≤ lo b) = splice rs (lo q) (hi q) [q] := by
  have hno : ∀ a ∈ rs, ¬ (lo a < hi q ∧ lo q < hi a) := fun a ha hm => by
    have : a ∈ meeting rs (lo q) (hi q) := mem_meeting.mpr ⟨ha, hm⟩
    simp [hfree] at this
  have hsp := (hrs.splice_one hno).2.2
  have hperm := (hrs.perm_splice_one hno).symm
  have hsorted : ((rs ++ [q]).mergeSort fun a b => lo a ≤ lo b).Pairwise
      fun a b => decide (lo a ≤ lo b) = true :=
    pairwise_mergeSort (fun a b c h1 h2 => by simp only [decide_eq_true_eq] at *; omega)
      (fun a b => by simp only [Bool.or_eq_true, decide_eq_true_eq]; omega) _
  refine List.Perm.eq_of_pairwise (fun a b ha hb hab hba => ?_) hsorted
    (hsp.lo_lt.imp fun h => by simpa using h.le) ((mergeSort_perm _ _).trans hperm)
  have ha' := hperm.mem_iff.mp ((mergeSort_perm _ _).mem_iff.mp ha)
  have h1 := lo_lt_hi a
  have h2 := lo_lt_hi b
  simp only [decide_eq_true_eq] at hab hba
  exact hsp.eq_of_cover (x := lo a) ha' hb (by omega) (by omega)

lemma Chained.perm_cons_filter (h : Chained l) (hb : b ∈ l) :
    (b :: l.filter fun a => lo a ≠ lo b).Perm l := by
  obtain ⟨X, Y, rfl⟩ := append_of_mem hb
  rw [h.filter_lo_ne]
  exact perm_middle.symm

/-- **Rewriting by pieces.** If what the pieces of an element say about a point is `φ` of what the
element said, and `φ` is the identity away from the window, the same holds of the whole list. -/
theorem view_splice_pieces {f : α → ℕ → β} {g : α → ℕ → γ} {φ : ℕ → β → Option γ}
    (hl : Chained l) (hse : s ≤ e) (h : Pieces P (meeting l s e) rs)
    (hP : ∀ a as, P a as → PiecesOf a as)
    (hin : ∀ a ∈ meeting l s e, ∀ as, P a as → ∀ x, lo a ≤ x → x < hi a → view g as x = φ x (f a x))
    (hout : ∀ a ∈ l, hi a ≤ s ∨ e ≤ lo a → ∀ x, lo a ≤ x → x < hi a →
      some (g a x) = φ x (f a x)) (x : ℕ) :
    view g (splice l s e rs) x = (view f l x).bind (φ x) := by
  have hr := h.replacing hl hP
  rcases hc : covering l x with _ | a
  · have : covering (splice l s e rs) x = none := by
      by_cases hw : s ≤ x ∧ x < e
      · rw [covering_splice_inside hl hr hse (.inl hw)]
        refine h.covering_none hP (covering_eq_none.mpr fun a ha => ?_)
        exact covering_eq_none.mp hc a (mem_meeting.mp ha).1
      · exact covering_splice_none hr hc hw
    simp [view, this, hc]
  obtain ⟨hal, hax⟩ := (covering_eq_some hl).mp hc
  have hv : view f l x = some (f a x) := by simp [view, hc]
  rw [hv, bind_some]
  by_cases hm : lo a < e ∧ s < hi a
  · have ham : a ∈ meeting l s e := mem_meeting.mpr ⟨hal, hm⟩
    obtain ⟨as, hPa, has⟩ := h.covering_some (hl.filter _) hP
      ((covering_eq_some (hl.filter _)).mpr ⟨ham, hax⟩)
    rw [← hin a ham as hPa x hax.1 hax.2, view, view,
      covering_splice_inside hl hr hse (.inr ⟨a, ham, hax⟩), has]
  · rw [view, covering_splice_outside hl hse hr hc hm, map_some]
    exact hout a hal (by omega) x hax.1 hax.2

end

end TxKernel.Spans
