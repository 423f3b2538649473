import TxKernel.Vm.EntrySplit
import TxKernel.Vm.TreapSimulation

/-!
What cutting an entry yields: the piece before the target, the target if it stays, and the piece
after it. A cut fails only if the target is not inside the entry, a file offset overflows, or the
zone of private sets is full.
-/

namespace TxKernel.Vm

open TxKernel.Spans UserRange VmEntryRewrite Option List

/-! ### Results that may be errors -/

section

variable {ε α β : Type} {err : ε} {b : β}

variable {x : Except ε α} {f : α → β} {k : α → Except ε β}

lemma map_error (h : x.map f = .error err) : x = .error err := by
  cases x with
  | error e => simpa [Except.map] using h
  | ok a => simp [Except.map] at h

lemma map_ok (h : x.map f = .ok b) : ∃ a, x = .ok a ∧ f a = b := by
  cases x with
  | error e => simp [Except.map] at h
  | ok a => exact ⟨a, rfl, by simpa [Except.map] using h⟩

lemma bind_ok (h : (x >>= k) = .ok b) : ∃ a, x = .ok a ∧ k a = .ok b := by
  cases x with
  | error e => cases h
  | ok a => exact ⟨a, rfl, h⟩

lemma bind_error (h : (x >>= k) = .error err) :
    x = .error err ∨ ∃ a, x = .ok a ∧ k a = .error err := by
  cases x with
  | error e => cases h; exact .inl rfl
  | ok a => exact .inr ⟨a, rfl, h⟩

end

/-! ### Parts of an entry -/

/-- `b` is the part `[start, stop)` of `e` under protection `prot`, private pages aside. -/
structure PieceOf (e : VmEntry) (start stop : ℕ) (prot : Prot) (b : VmEntry) : Prop where
  start_eq : b.range.start = start
  stop_eq : b.range.stop = stop
  prot_eq : b.prot = prot
  flags_eq : b.flags = e.flags
  ufd_eq : b.ufdRegistration = e.ufdRegistration
  page_eq : b.owners.page = e.owners.page
  special_eq : b.owners.special = e.owners.special
  backing_eq : e.backing.atRangeOffset (start - e.range.start) = .ok b.backing

/-- The file offset that address `a` of the entry reads from does not overflow. -/
def VmEntry.OffsetFits (e : VmEntry) (a : ℕ) : Prop :=
  ∀ o, e.backing = .page o → o.toNat + (a - e.range.start) < 2 ^ 64

/-! ### Backings -/

namespace VmEntryBacking

lemma atRangeOffset_zero (b : VmEntryBacking) : b.atRangeOffset 0 = .ok b := by
  cases b with
  | none => rfl
  | privateAnon => rfl
  | page o =>
    have : checkedAdd o 0 = .some o := checkedAdd_eq_some.mpr rfl
    simp [atRangeOffset, this]

variable {b : VmEntryBacking} {delta : ℕ}

lemma atRangeOffset_error {err : VmEntryError} (h : b.atRangeOffset delta = .error err) :
    err = .backingOffsetOverflow ∧ ∃ o, b = .page o ∧ 2 ^ 64 ≤ o.toNat + delta := by
  cases b with
  | none | privateAnon => simp [atRangeOffset] at h
  | page o =>
    rcases hc : checkedAdd o delta with _ | o'
    · simp only [atRangeOffset, hc, Except.error.injEq] at h
      exact ⟨h.symm, o, rfl, checkedAdd_eq_none.mp hc⟩
    · simp [atRangeOffset, hc] at h

lemma atRangeOffset_ok {c : VmEntryBacking} (h : b.atRangeOffset delta = .ok c) :
    (b = .none ∧ c = .none) ∨ (b = .privateAnon ∧ c = .privateAnon) ∨
      ∃ o o' : UInt64, b = .page o ∧ c = .page o' ∧ o'.toNat = o.toNat + delta := by
  cases b with
  | none => exact .inl ⟨rfl, by cases h; rfl⟩
  | privateAnon => exact .inr (.inl ⟨rfl, by cases h; rfl⟩)
  | page o =>
    rcases hc : checkedAdd o delta with _ | o'
    · simp [atRangeOffset, hc] at h
    simp only [atRangeOffset, hc, Except.ok.injEq] at h
    exact .inr (.inr ⟨o, o', rfl, h.symm, checkedAdd_eq_some.mp hc⟩)

end VmEntryBacking

/-! ### Private sets -/

def ZoneFull (zone : ℕ → Bool) (err : PrivatePageError) : Prop := err = .zone ∧ ∃ n, zone n = false

lemma newCapWith_error {zone : ℕ → Bool} {heap : PrivateHeap} {s : PrivatePageSet}
    {err : PrivatePageError} (h : heap.newCapWith zone s = .error err) : ZoneFull zone err := by
  unfold PrivateHeap.newCapWith at h
  split_ifs at h with hz
  cases h
  exact ⟨rfl, _, by simpa using hz⟩

namespace VmEntry

variable {zone : ℕ → Bool} {heap heap' : PrivateHeap} {e : VmEntry} {start stop : ℕ} {prot : Prot}

lemma subPrivate_error {err : PrivatePageError}
    (h : subPrivate zone heap e start stop prot = .error err) : ZoneFull zone err := by
  unfold subPrivate at h
  split at h
  · split_ifs at h
    · exact newCapWith_error (map_error h)
    · exact newCapWith_error (map_error h)
  · split_ifs at h
    exact newCapWith_error (map_error h)

/-! ### Pieces -/

lemma subEntry_ok {b : VmEntry} (h : subEntry zone heap e start stop prot = .ok (heap', b)) :
    PieceOf e start stop prot b ∧
      subPrivate zone heap e start stop prot = .ok (heap', b.owners.priv) := by
  unfold subEntry at h
  split_ifs at h with hlt
  split at h
  · cases h
  rename_i range hrange
  obtain ⟨h1, h2⟩ := ends_of_newAligned hrange
  dsimp only at h
  split at h
  · cases h
  rename_i backing hb
  split at h
  · cases h
  rename_i heap1 priv hp
  cases h
  refine ⟨⟨h1, ?_, rfl, rfl, rfl, rfl, rfl, hb⟩, hp⟩
  show range.stop = stop
  omega

lemma subEntry_error {err : VmEntryError} (hlt : start < stop) (hs : start % userPageSize = 0)
    (ht : stop % userPageSize = 0) (hstop : stop < 2 ^ 64)
    (h : subEntry zone heap e start stop prot = .error err) :
    (err = .backingOffsetOverflow ∧ ¬ e.OffsetFits start) ∨
      ∃ perr, err = .priv perr ∧ ZoneFull zone perr := by
  obtain ⟨range, hrange, -, -⟩ := newAligned_eq_ok start (stop - start) (by omega)
    hs (by unfold userPageSize at *; omega) (by omega)
  unfold subEntry at h
  rw [if_neg (by omega), hrange] at h
  dsimp only at h
  split at h
  · rename_i err' hb
    cases h
    obtain ⟨rfl, o, ho, hle⟩ := VmEntryBacking.atRangeOffset_error hb
    exact .inl ⟨rfl, fun hfit => by have := hfit o ho; omega⟩
  split at h
  · rename_i err' hp
    cases h
    exact .inr ⟨err', rfl, subPrivate_error hp⟩
  · cases h

end VmEntry

variable {e : VmEntry}

lemma PieceOf.offsetFits {b : VmEntry} {start stop : ℕ} {prot : Prot}
    (h : PieceOf e start stop prot b) : e.OffsetFits start := by
  intro o ho
  by_contra hc
  have hnone := checkedAdd_eq_none.mpr (not_lt.mp hc)
  have hb := h.backing_eq
  simp [ho, VmEntryBacking.atRangeOffset, hnone] at hb

/-! ### Cuts -/

/-- The rewrite cuts `e` at `target`; what stays of the target has protection `p`. -/
structure CutAt (e : VmEntry) (target : UserRange) (p : Option Prot) (r : VmEntryRewrite) :
    Prop where
  inside : e.range.containsRange target
  before : if e.range.start < target.start then
      ∃ b, r.before = some b ∧ PieceOf e e.range.start target.start e.prot b
    else r.before = none
  after : if target.stop < e.range.stop then
      ∃ b, r.after = some b ∧ PieceOf e target.stop e.range.stop e.prot b
    else r.after = none
  target : match p with
    | none => r.target = none
    | some p => ∃ b, r.target = some b ∧ PieceOf e target.start target.stop p b

def VmEntry.CutFits (e : VmEntry) (target : UserRange) (p : Option Prot) : Prop :=
  (p.isSome → e.OffsetFits target.start) ∧
    (target.stop < e.range.stop → e.OffsetFits target.stop)

namespace VmEntry

variable {zone : ℕ → Bool} {heap heap' : PrivateHeap} {e : VmEntry} {target : UserRange}
  {p : Option Prot} {r : VmEntryRewrite} {prot : Prot} {err : VmEntryError}

/-- A cut takes the entry as a whole, or makes up to three pieces in turn. -/
lemma splitRewrite_ok (h : splitRewrite zone heap e target p = .ok (heap', r)) :
    e.range.containsRange target ∧
      ((e.range = target ∧ p = none ∧ heap' = heap ∧ r = ⟨none, none, none⟩) ∨
       (e.range = target ∧ ∃ prot b, p = some prot ∧ r = ⟨none, some b, none⟩ ∧
          protectWhole zone heap e prot = .ok (heap', b)) ∨
       (e.range ≠ target ∧ ∃ h1 h2,
          subEntryIf zone (e.range.start < target.start) heap e e.range.start target.start e.prot =
            .ok (h1, r.before) ∧
          subTarget zone h1 e target p = .ok (h2, r.target) ∧
          subEntryIf zone (target.stop < e.range.stop) h2 e target.stop e.range.stop e.prot =
            .ok (heap', r.after))) := by
  unfold splitRewrite at h
  split_ifs at h with hin heq
  · refine ⟨hin, ?_⟩
    rcases p with _ | prot
    · cases h
      exact .inl ⟨heq, rfl, rfl, rfl⟩
    obtain ⟨⟨h1, b⟩, hb, hr⟩ := map_ok h
    cases hr
    exact .inr (.inl ⟨heq, prot, b, rfl, rfl, hb⟩)
  · refine ⟨hin, .inr (.inr ⟨heq, ?_⟩)⟩
    obtain ⟨⟨h1, before⟩, hb, h⟩ := bind_ok h
    obtain ⟨⟨h2, tgt⟩, ht, h⟩ := bind_ok h
    obtain ⟨⟨h3, after⟩, ha, h⟩ := bind_ok h
    cases h
    exact ⟨h1, h2, hb, ht, ha⟩

section

variable {c : Prop} [Decidable c] {start stop : ℕ} {prot : Prot} {b : Option VmEntry}
  (h : subEntryIf zone (decide c) heap e start stop prot = .ok (heap', b))
include h

lemma subEntryIf_ok :
    if c then ∃ a, b = some a ∧ subEntry zone heap e start stop prot = .ok (heap', a)
    else b = none ∧ heap' = heap := by
  by_cases hc : c
  · simp only [hc, decide_true, if_true] at h ⊢
    obtain ⟨⟨h1, a⟩, h2, h3⟩ := map_ok h
    cases h3
    exact ⟨a, rfl, h2⟩
  · simp only [hc, decide_false, if_false] at h ⊢
    cases h
    exact ⟨rfl, rfl⟩

lemma pieceOf_subEntryIf :
    if c then ∃ a, b = some a ∧ PieceOf e start stop prot a else b = none := by
  have := subEntryIf_ok h
  split_ifs at this ⊢
  · obtain ⟨a, h1, h2⟩ := this
    exact ⟨a, h1, (subEntry_ok h2).1⟩
  · exact this.1

end

lemma pieceOf_protectWhole {b : VmEntry} (h : protectWhole zone heap e prot = .ok (heap', b)) :
    PieceOf e e.range.start e.range.stop prot b := by
  have hz : e.backing.atRangeOffset (e.range.start - e.range.start) = .ok e.backing := by
    rw [Nat.sub_self]; exact e.backing.atRangeOffset_zero
  unfold protectWhole at h
  split_ifs at h
  · split at h
    · cases h
    cases h
    exact ⟨rfl, rfl, rfl, rfl, rfl, rfl, rfl, hz⟩
  · cases h
    exact ⟨rfl, rfl, rfl, rfl, rfl, rfl, rfl, hz⟩

lemma cutAt_of_splitRewrite (h : splitRewrite zone heap e target p = .ok (heap', r)) :
    CutAt e target p r := by
  obtain ⟨hin, hcase⟩ := splitRewrite_ok h
  rcases hcase with ⟨rfl, rfl, -, rfl⟩ | ⟨rfl, prot, b, rfl, rfl, hb⟩ | ⟨-, h1, h2, hb, ht, ha⟩
  · exact ⟨hin, by simp, by simp, rfl⟩
  · exact ⟨hin, by simp, by simp, b, rfl, pieceOf_protectWhole hb⟩
  refine ⟨hin, pieceOf_subEntryIf hb, pieceOf_subEntryIf ha, ?_⟩
  rcases p with _ | prot
  · simp only [subTarget, Except.ok.injEq, Prod.mk.injEq] at ht
    exact ht.2.symm
  · simpa using pieceOf_subEntryIf (c := True) (by simpa [subTarget] using ht)

lemma subEntryIf_error {c : Prop} [Decidable c] {start stop : ℕ}
    (h : subEntryIf zone (decide c) heap e start stop prot = .error err) :
    c ∧ subEntry zone heap e start stop prot = .error err := by
  unfold subEntryIf at h
  by_cases hc : c
  · simp only [hc, decide_true, if_true] at h
    exact ⟨hc, map_error h⟩
  · simp [hc] at h

lemma offsetFits_start (e : VmEntry) : e.OffsetFits e.range.start := fun o _ => by
  have := o.toNat_lt
  omega

/-- **Failing cuts**: the target is not inside, an offset overflows, or the zone is full. -/
lemma splitRewrite_error (h : splitRewrite zone heap e target p = .error err) :
    (err = .rangeNotContained ∧ ¬ e.range.containsRange target) ∨
      (err = .backingOffsetOverflow ∧ ¬ e.CutFits target p) ∨
      ∃ perr, err = .priv perr ∧ ZoneFull zone perr := by
  have hes := e.range.start_aligned
  have het := e.range.stop_aligned
  have hts := target.start_aligned
  have htt := target.stop_aligned
  have hee := e.range.stop_lt
  have hlt := target.start_lt_stop
  have htl := target.stop_lt
  unfold splitRewrite at h
  split_ifs at h with hin heq
  · rcases p with _ | prot
    · cases h
    have hw := map_error h
    unfold protectWhole at hw
    split_ifs at hw
    split at hw
    · rename_i err' hz
      cases hw
      exact .inr (.inr ⟨err', rfl, newCapWith_error hz⟩)
    · cases hw
  · obtain hb | ⟨⟨h1, before⟩, -, h⟩ := bind_error h
    · obtain ⟨hc, hb⟩ := subEntryIf_error hb
      rcases subEntry_error hc hes hts (by omega) hb with ⟨-, hn⟩ | hz
      · exact absurd e.offsetFits_start hn
      · exact .inr (.inr hz)
    obtain ht | ⟨⟨h2, tgt⟩, -, h⟩ := bind_error h
    · rcases p with _ | prot
      · cases ht
      have ht' := (subEntryIf_error (c := True) (by simpa [subTarget] using ht)).2
      rcases subEntry_error hlt hts htt htl ht' with ⟨rfl, hn⟩ | hz
      · exact .inr (.inl ⟨rfl, fun hf => hn (hf.1 rfl)⟩)
      · exact .inr (.inr hz)
    obtain ha | ⟨⟨h3, after⟩, -, h⟩ := bind_error h
    · obtain ⟨hc, ha⟩ := subEntryIf_error ha
      rcases subEntry_error hc htt het hee ha with ⟨rfl, hn⟩ | hz
      · exact .inr (.inl ⟨rfl, fun hf => hn (hf.2 hc)⟩)
      · exact .inr (.inr hz)
    · cases h
  · exact .inl ⟨by cases h; rfl, hin⟩

end VmEntry

structure RewriteFits (e : VmEntry) (es : List VmEntry) : Prop where
  chained : Chained es
  inside : ∀ b ∈ es, e.range.start ≤ b.range.start ∧ b.range.stop ≤ e.range.stop

lemma RewriteFits.replacing {es : List VmEntry} (h : RewriteFits e es) (L : List VmEntry) :
    Replacing L e.range.start e.range.stop es :=
  ⟨h.chained, fun b hb x h1 h2 => .inl (by
    have := h.inside b hb
    simp only [lo_eq, hi_eq] at h1 h2
    omega)⟩

namespace CutAt

variable {e : VmEntry} {target : UserRange} {p : Option Prot} {r : VmEntryRewrite}

lemma cutFits (h : CutAt e target p r) : e.CutFits target p := by
  constructor
  · intro hp
    obtain ⟨prot, rfl⟩ := isSome_iff_exists.mp hp
    obtain ⟨b, -, hb⟩ := h.target
    exact hb.offsetFits
  intro hlt
  have ha := h.after
  rw [if_pos hlt] at ha
  obtain ⟨b, -, hb⟩ := ha
  exact hb.offsetFits

lemma of_mem_toList {c : Prop} [Decidable c] {o : Option VmEntry} {P : VmEntry → Prop}
    (h : if c then ∃ a, o = some a ∧ P a else o = none) : ∀ b ∈ o.toList, c ∧ P b := by
  intro b hb
  split_ifs at h with hc
  · obtain ⟨a, rfl, ha⟩ := h
    rw [mem_toList, some.injEq] at hb
    exact ⟨hc, hb ▸ ha⟩
  · simp [h] at hb

section

variable (h : CutAt e target p r)

include h

lemma before_toList : ∀ b ∈ r.before.toList,
    e.range.start < target.start ∧ PieceOf e e.range.start target.start e.prot b :=
  of_mem_toList h.before

lemma after_toList : ∀ b ∈ r.after.toList,
    target.stop < e.range.stop ∧ PieceOf e target.stop e.range.stop e.prot b :=
  of_mem_toList h.after

lemma target_toList : ∀ b ∈ r.target.toList,
    ∃ prot, p = some prot ∧ PieceOf e target.start target.stop prot b := by
  intro b hb
  have ht := h.target
  rcases p with _ | prot
  · simp [ht] at hb
  · exact ⟨prot, rfl, (of_mem_toList (c := True) (by simpa using ht) b hb).2⟩

lemma ends : ∀ b ∈ r.intoEntries,
    e.range.start ≤ b.range.start ∧ b.range.stop ≤ e.range.stop := by
  have hin := h.inside
  have hlt := target.start_lt_stop
  intro b hb
  simp only [intoEntries, mem_append] at hb
  rcases hb with (hb | hb) | hb
  · obtain ⟨-, hp⟩ := h.before_toList b hb
    have h1 := hp.start_eq
    have h2 := hp.stop_eq
    omega
  · obtain ⟨prot, -, hp⟩ := h.target_toList b hb
    have h1 := hp.start_eq
    have h2 := hp.stop_eq
    omega
  · obtain ⟨-, hp⟩ := h.after_toList b hb
    have h1 := hp.start_eq
    have h2 := hp.stop_eq
    omega

end

lemma chained_toList (o : Option VmEntry) : Chained o.toList := by cases o <;> simp

lemma chained (h : CutAt e target p r) : Chained r.intoEntries := by
  have hlt := target.start_lt_stop
  rw [intoEntries, chained_append, chained_append]
  refine ⟨⟨chained_toList _, chained_toList _, ?_⟩, chained_toList _, ?_⟩
  · intro a ha b hb
    obtain ⟨-, hpa⟩ := h.before_toList a ha
    obtain ⟨prot, -, hpb⟩ := h.target_toList b hb
    simp only [hi_eq, lo_eq, hpa.stop_eq, hpb.start_eq, le_refl]
  intro a ha b hb
  obtain ⟨-, hpb⟩ := h.after_toList b hb
  rcases mem_append.mp ha with ha | ha
  · obtain ⟨-, hpa⟩ := h.before_toList a ha
    simp only [hi_eq, lo_eq, hpa.stop_eq, hpb.start_eq]
    omega
  · obtain ⟨prot, -, hpa⟩ := h.target_toList a ha
    simp only [hi_eq, lo_eq, hpa.stop_eq, hpb.start_eq, le_refl]

lemma fits (h : CutAt e target p r) : RewriteFits e r.intoEntries := ⟨h.chained, h.ends⟩

lemma replacementCount {prot : Prot} (h : CutAt e target (some prot) r) :
    r.intoEntries.length = (if e.range.start < target.start then 1 else 0) + 1 +
        (if target.stop < e.range.stop then 1 else 0) ∧
      vmSizeOf r.intoEntries = e.range.len := by
  obtain ⟨b, hb, pb⟩ := h.target
  have hin := h.inside
  have hlt := target.start_lt_stop
  have hbefore : r.before.toList.length = (if e.range.start < target.start then 1 else 0) ∧
      vmSizeOf r.before.toList = target.start - e.range.start := by
    have := h.before
    split_ifs at this ⊢
    · obtain ⟨a, ha, pa⟩ := this
      simp [ha, len, pa.start_eq, pa.stop_eq]
    · simp [this]
      omega
  have hafter : r.after.toList.length = (if target.stop < e.range.stop then 1 else 0) ∧
      vmSizeOf r.after.toList = e.range.stop - target.stop := by
    have := h.after
    split_ifs at this ⊢
    · obtain ⟨a, ha, pa⟩ := this
      simp [ha, len, pa.start_eq, pa.stop_eq]
    · simp [this]
      omega
  have htarget : vmSizeOf [b] = target.stop - target.start := by
    simp [len, pb.start_eq, pb.stop_eq]
  simp only [intoEntries, hb, toList_some, length_append,
    vmSizeOf_append, htarget, hbefore, hafter, length_singleton]
  refine ⟨trivial, ?_⟩
  unfold len
  omega

end CutAt

end TxKernel.Vm
