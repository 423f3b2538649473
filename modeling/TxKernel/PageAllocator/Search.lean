import Mathlib.Order.Lattice
import Mathlib.Tactic.Common
import TxKernel.PageAllocator.Bitmap

/-!
What the searches of the bitmap come to: they fail and change nothing, or clear the bits of what
they return.
-/

namespace TxKernel.PageAllocator.Alloc

open List Option Layout Function

variable {L : Layout} {a : Alloc}

/-- Free bits belong to frames that are neither reserved nor in use. -/
def Clean (L : Layout) (a : Alloc) : Prop :=
  ∀ i < L.total, a.bits i = true → (a.metas i).reserved = false ∧ (a.metas i).state = 0

lemma takeFirstFreeFromWord_some {word i : ℕ} (h : a.takeFirstFreeFromWord L word = some i) :
    i < L.total ∧ a.bits i = true ∧ i / 64 = word := by
  simp only [takeFirstFreeFromWord, map_eq_some_iff] at h
  obtain ⟨b, hfind, rfl⟩ := h
  have hb := mem_range.mp (mem_of_find?_eq_some hfind)
  have hp := find?_some hfind
  simp only [Bool.and_eq_true, decide_eq_true_eq] at hp
  exact ⟨hp.1, hp.2, by omega⟩

def taken (a : Alloc) (i : ℕ) : Alloc :=
  { a.setBit i false with hint := i / 64, free := a.free - 1 }

lemma reserveScan_spec (hc : Clean L a) (start : ℕ) (offsets : List ℕ) :
    reserveScan L start offsets a = (.error .exhausted, a) ∨
      ∃ i < L.total, a.bits i = true ∧
        reserveScan L start offsets a = (.ok (L.base + i), a.taken i) := by
  induction offsets with
  | nil => exact .inl rfl
  | cons offset rest ih =>
    rcases hw : a.takeFirstFreeFromWord L ((start + offset) % L.words) with _ | i
    · simpa only [reserveScan, hw] using ih
    obtain ⟨hi, hbit, hword⟩ := takeFirstFreeFromWord_some hw
    obtain ⟨hres, hstate⟩ := hc i hi hbit
    refine .inr ⟨i, hi, hbit, ?_⟩
    simp [reserveScan, hw, setBit, hres, hstate, taken, hword]

theorem reserveSinglePpn_spec (hc : Clean L a) :
    a.reserveSinglePpn L = (.error .exhausted, a) ∨
      ∃ i < L.total, a.bits i = true ∧ a.reserveSinglePpn L = (.ok (L.base + i), a.taken i) := by
  unfold reserveSinglePpn
  split_ifs
  · exact .inl rfl
  · exact reserveScan_spec hc _ _

/-- All frames of a run are covered, and their bits are set. -/
structure RunFree (L : Layout) (a : Alloc) (base count : ℕ) : Prop where
  lower : L.base ≤ base
  upper : base + count ≤ L.base + L.total
  bits : ∀ p, base ≤ p → p < base + count → a.bits (p - L.base) = true

/-- None of them is reserved or in use either. -/
structure RunUsable (L : Layout) (a : Alloc) (base count : ℕ) : Prop
    extends RunFree L a base count where
  unused : ∀ p, base ≤ p → p < base + count →
    (a.metas (p - L.base)).reserved = false ∧ (a.metas (p - L.base)).state = 0

def cleared (L : Layout) (a : Alloc) (base count : ℕ) : Alloc :=
  { a with bits := fun i =>
      if base ≤ L.base + i ∧ L.base + i < base + count then false else a.bits i }

def claimed (a : Alloc) (L : Layout) (base count : ℕ) : Alloc :=
  { cleared L a base count with free := a.free - .ofNat 64 count, hint := (base - L.base) / 64 }

lemma cleared_zero (L : Layout) (a : Alloc) (base : ℕ) : cleared L a base 0 = a := by
  unfold cleared
  congr 1
  funext i
  rw [if_neg (by omega)]

variable {base count : ℕ} {start limit align : ℕ}

lemma cleared_succ (hb : L.base ≤ base) :
    (cleared L a base count).setBit (base + count - L.base) false =
      cleared L a base (count + 1) := by
  unfold cleared setBit
  congr 1
  funext i
  simp only [update_apply]
  split_ifs <;> first | rfl | omega

lemma restoreCandidateRun_succ (a : Alloc) (base count : ℕ) :
    a.restoreCandidateRun L base (count + 1) =
      (a.restoreCandidateRun L base count).setBit (base + count - L.base) true := by
  simp [restoreCandidateRun, range_succ]

lemma restoreCandidateRun_bits (hb : L.base ≤ base) (count i : ℕ) :
    (a.restoreCandidateRun L base count).bits i =
      if base ≤ L.base + i ∧ L.base + i < base + count then true else a.bits i := by
  induction count with
  | zero =>
    rw [if_neg (by omega)]
    rfl
  | succ count ih =>
    simp only [restoreCandidateRun_succ, setBit, update_apply, ih]
    split_ifs <;> first | rfl | omega

lemma restoreCandidateRun_rest (a : Alloc) (base count : ℕ) :
    (a.restoreCandidateRun L base count).metas = a.metas ∧
      (a.restoreCandidateRun L base count).free = a.free ∧
      (a.restoreCandidateRun L base count).hint = a.hint := by
  induction count with
  | zero => exact ⟨rfl, rfl, rfl⟩
  | succ count ih =>
    rw [restoreCandidateRun_succ]
    exact ih

/-- The rollback of a run that was only partly free restores what was there. -/
lemma restore_cleared (hf : RunFree L a base count) :
    (cleared L a base count).restoreCandidateRun L base count = a := by
  obtain ⟨hmetas, hfree, hhint⟩ :=
    restoreCandidateRun_rest (L := L) (cleared L a base count) base count
  refine Alloc.ext hmetas (funext fun i => ?_) hfree hhint
  rw [restoreCandidateRun_bits hf.lower]
  split_ifs with h
  · have := hf.bits (L.base + i) h.1 h.2
    rw [Nat.add_sub_cancel_left] at this
    exact this.symm
  · exact if_neg h

lemma covers_of_run {p : ℕ} (hlow : L.base ≤ base) (hup : base + count ≤ L.base + L.total)
    (h1 : base ≤ p) (h2 : p < base + count) :
    L.Covers p := ⟨by omega, by omega⟩

lemma claimRun_spec (rest claimed : ℕ) (hf : RunFree L a base claimed)
    (hup : base + (claimed + rest) ≤ L.base + L.total) :
    (¬ RunFree L a base (claimed + rest) ∧
        claimRun L base rest claimed (cleared L a base claimed) = some (false, a)) ∨
      (RunFree L a base (claimed + rest) ∧ claimRun L base rest claimed (cleared L a base claimed) =
          some (true, cleared L a base (claimed + rest))) := by
  induction rest generalizing claimed with
  | zero => exact .inr ⟨hf, rfl⟩
  | succ rest ih =>
    have hcov : L.Covers (base + claimed) := covers_of_run hf.lower hup (by omega) (by omega)
    have hbit : (cleared L a base claimed).bits (base + claimed - L.base) =
        a.bits (base + claimed - L.base) := by
      exact if_neg (by omega)
    rcases hb : a.bits (base + claimed - L.base) with _ | _
    · refine .inl ⟨fun hfree => ?_, ?_⟩
      · simp [hfree.bits (base + claimed) (by omega) (by omega)] at hb
      simp only [claimRun, denseIndex_eq hcov, bind_some, hbit, hb,
        Bool.false_eq_true, if_false, restore_cleared hf]
    have hf' : RunFree L a base (claimed + 1) := by
      refine ⟨hf.lower, by omega, fun p h1 h2 => ?_⟩
      rcases Nat.lt_or_ge p (base + claimed) with h3 | h3
      · exact hf.bits p h1 h3
      obtain rfl : p = base + claimed := by omega
      exact hb
    have hrec : claimRun L base (rest + 1) claimed (cleared L a base claimed) =
        claimRun L base rest (claimed + 1) (cleared L a base (claimed + 1)) := by
      simp only [claimRun, denseIndex_eq hcov, bind_some, hbit, hb, if_true, cleared_succ hf.lower]
    rw [hrec, show claimed + (rest + 1) = claimed + 1 + rest by omega]
    exact ih (claimed + 1) hf' (by omega)

section

variable (hlow : L.base ≤ base) (hup : base + count ≤ L.base + L.total)

include hlow hup

lemma metasUnused_eq (offsets : List ℕ) (hoff : ∀ o ∈ offsets, o < count) :
    a.metasUnused L base offsets = some (offsets.all fun o =>
      !(a.metas (base + o - L.base)).reserved && (a.metas (base + o - L.base)).state = 0) := by
  induction offsets with
  | nil => rfl
  | cons o offsets ih =>
    have ho := hoff o mem_cons_self
    have hcov : L.Covers (base + o) := covers_of_run hlow hup (by omega) (by omega)
    rw [metasUnused, denseIndex_eq hcov, bind_some,
      ih fun o' ho' => hoff o' (mem_cons_of_mem _ ho')]
    by_cases hres : (a.metas (base + o - L.base)).reserved = true
    · simp [hres]
    · by_cases hstate : (a.metas (base + o - L.base)).state = 0 <;> simp [hres, hstate]

theorem tryReserveRunAt_spec :
    (¬ RunUsable L a base count ∧ a.tryReserveRunAt L base count = some (false, a)) ∨
      (RunUsable L a base count ∧
        a.tryReserveRunAt L base count = some (true, cleared L a base count)) := by
  rw [tryReserveRunAt, metasUnused_eq hlow hup _ fun o ho => mem_range.mp ho, bind_some]
  by_cases hunused : ((range count).all fun o => !(a.metas (base + o - L.base)).reserved &&
      (a.metas (base + o - L.base)).state = 0) = true
  · have hzero : RunFree L a base 0 := ⟨hlow, by omega, fun p h1 h2 => by omega⟩
    have hclaim := claimRun_spec count 0 hzero (by omega)
    rw [cleared_zero, Nat.zero_add] at hclaim
    rw [if_pos hunused]
    refine hclaim.imp (fun h => ⟨fun hu => h.1 hu.toRunFree, h.2⟩) fun h => ⟨⟨h.1, ?_⟩, h.2⟩
    intro p h1 h2
    obtain ⟨o, rfl⟩ := Nat.exists_eq_add_of_le h1
    simpa using all_eq_true.mp hunused o (mem_range.mpr (by omega))
  · rw [if_neg hunused]
    refine .inl ⟨fun hu => hunused (all_eq_true.mpr fun o ho => ?_), rfl⟩
    simpa using hu.unused (base + o) (by omega) (by have := mem_range.mp ho; omega)

end

lemma nextFreeScan_spec (endDense : ℕ) (hend : endDense ≤ L.total) (fuel word floor : ℕ)
    (hword : word ≤ L.words) (hfuel : L.words < word + fuel) (hfloor : floor < 64) :
    ∃ r, a.nextFreeScan L endDense fuel word floor = some r ∧
      (∀ n, r = some n → L.base + (word * 64 + floor) ≤ n) ∧
      ∀ i, word * 64 + floor ≤ i → i < endDense → a.bits i = true →
        ∃ n, r = some n ∧ n ≤ L.base + i := by
  have hcov := L.covers
  induction fuel generalizing word floor with
  | zero => omega
  | succ fuel ih =>
    rw [nextFreeScan]
    by_cases hmore : word * 64 < endDense
    · have hlt : ¬ L.words ≤ word := by omega
      rw [if_pos hmore, if_neg hlt]
      split
      · rename_i b hfind
        obtain ⟨hp, -, hfirst⟩ := find?_range_eq_some.mp hfind
        simp only [Bool.and_eq_true, decide_eq_true_eq] at hp
        have hle (i : ℕ) (h1 : word * 64 + floor ≤ i) (h2 : i < endDense)
            (hbit : a.bits i = true) : word * 64 + b ≤ i := by
          by_contra hlt
          have := hfirst (i - word * 64) (by omega)
          rw [Nat.add_sub_cancel' (by omega)] at this
          simp [hbit] at this
          omega
        split_ifs with hpast
        · refine ⟨none, rfl, by simp, fun i h1 h2 hbit => ?_⟩
          have := hle i h1 h2 hbit
          omega
        refine ⟨_, rfl, fun n hn => ?_, fun i h1 h2 hbit => ⟨_, rfl, ?_⟩⟩
        · cases hn
          omega
        · exact Nat.add_le_add_left (hle i h1 h2 hbit) _
      · rename_i hnone
        obtain ⟨r, hr, hge, hfirst⟩ := ih (word + 1) 0 (by omega) (by omega) (by omega)
        refine ⟨r, hr, fun n hn => ?_, fun i h1 h2 hbit => hfirst i ?_ h2 hbit⟩
        · have := hge n hn
          omega
        by_contra hlt
        have := find?_range_eq_none.mp hnone (i - word * 64) (by omega)
        rw [Nat.add_sub_cancel' (by omega)] at this
        simp [hbit] at this
        omega
    · rw [if_neg hmore]
      exact ⟨none, rfl, by simp, fun i h1 h2 => by omega⟩

lemma nextFreePpnAtOrAfter_spec (hlow : L.base ≤ start) (hup : limit ≤ L.base + L.total) :
    ∃ r, a.nextFreePpnAtOrAfter L start limit = some r ∧ (∀ n, r = some n → start ≤ n) ∧
      ∀ p, start ≤ p → p < limit → a.bits (p - L.base) = true → ∃ n, r = some n ∧ n ≤ p := by
  unfold nextFreePpnAtOrAfter
  split_ifs with h
  · exact ⟨none, rfl, by simp, fun p h1 h2 => by omega⟩
  have hcov : L.Covers start := ⟨hlow, by omega⟩
  have hwords := L.covers
  rw [denseIndex_eq hcov, bind_some]
  obtain ⟨r, hr, hge, hfirst⟩ := nextFreeScan_spec (L := L) (a := a)
    (start - L.base + (limit - start)) (by omega) (L.words + 1) ((start - L.base) / 64)
    ((start - L.base) % 64) (by omega) (by omega) (by omega)
  refine ⟨r, hr, fun n hn => ?_, fun p h1 h2 hbit => ?_⟩
  · have := hge n hn
    omega
  · obtain ⟨n, hn, hle⟩ := hfirst (p - L.base) (by omega) (by omega) hbit
    exact ⟨n, hn, by omega⟩

lemma alignUp_spec (value : ℕ) (halign : 0 < align) :
    ∃ r, align ∣ r ∧ value ≤ r ∧ (∀ b, align ∣ b → value ≤ b → r ≤ b) ∧
      (alignUp value align = some r ∨ wordSize ≤ r ∧ alignUp value align = none) := by
  have hdiv := Nat.div_add_mod value align
  have hmod := Nat.mod_lt value halign
  unfold alignUp
  by_cases hzero : value % align = 0
  · exact ⟨value, Nat.dvd_of_mod_eq_zero hzero, le_rfl, fun _ _ h => h, .inl (if_pos hzero)⟩
  have hup : value + (align - value % align) = align * (value / align + 1) := by
    rw [Nat.mul_add]
    omega
  refine ⟨value + (align - value % align), ⟨_, hup⟩, Nat.le_add_right _ _, ?_, ?_⟩
  · rintro _ ⟨k, rfl⟩ hle
    rw [hup]
    refine Nat.mul_le_mul_left _ (Nat.div_lt_of_lt_mul (lt_of_le_of_ne hle ?_))
    rintro rfl
    simp at hzero
  · rw [if_neg hzero]
    split_ifs with hlt
    · exact .inl rfl
    · exact .inr ⟨Nat.le_of_not_lt hlt, rfl⟩

/-- What a search for a run among the aligned bases from `start` up to `limit` comes to. -/
def RunResult (L : Layout) (a : Alloc) (count align start limit : ℕ) (r : Option ℕ × Alloc) :
    Prop :=
  (r = (none, a) ∧ ∀ b, align ∣ b → start ≤ b → b < limit → ¬ RunUsable L a b count) ∨
    ∃ base, align ∣ base ∧ RunUsable L a base count ∧ r = (some base, a.claimed L base count)

lemma RunResult.skip {start' : ℕ} {r : Option ℕ × Alloc}
    (h : RunResult L a count align start' limit r)
    (hskip : ∀ b, align ∣ b → start ≤ b → b < limit → RunUsable L a b count → start' ≤ b) :
    RunResult L a count align start limit r :=
  h.imp_left fun ⟨hr, hnone⟩ =>
    ⟨hr, fun b h1 h2 h3 hu => hnone b h1 (hskip b h1 h2 h3 hu) h3 hu⟩

/-- One pass: the base moves up with every step, so the fuel suffices, and passes over no usable
run. -/
lemma scanRuns_spec (hend : L.base + L.total < wordSize) (hcount : 0 < count) (halign : 0 < align)
    (hlimit : limit ≤ L.base + L.total) (fuel base : ℕ) (hlow : L.base ≤ base) (hpos : 0 < fuel)
    (hfuel : L.base + L.total < base + fuel) (hdvd : base < limit → align ∣ base) :
    ∃ r, scanRuns L count align (L.base + L.total) limit fuel base a = some r ∧
      RunResult L a count align base limit r := by
  induction fuel generalizing base with
  | zero => omega
  | succ fuel ih =>
    rw [scanRuns]
    by_cases hcond : base < limit ∧ base + count < wordSize ∧ base + count ≤ L.base + L.total
    swap
    · rw [if_neg hcond]
      refine ⟨_, rfl, .inl ⟨rfl, fun b _ _ _ hu => ?_⟩⟩
      have := hu.upper
      omega
    have hcov : L.Covers base := ⟨hlow, by omega⟩
    rw [if_pos hcond, denseIndex_eq hcov, bind_some]
    by_cases hbit : a.bits (base - L.base) = true
    · rw [if_pos hbit]
      rcases tryReserveRunAt_spec (a := a) hlow hcond.2.2 with ⟨hno, htry⟩ | ⟨hyes, htry⟩
      · have hskip (b : ℕ) (hb : align ∣ b) (hle : base ≤ b) (hu : RunUsable L a b count) :
            base + align ≤ b := by
          rcases hle.eq_or_lt with rfl | hlt
          · exact absurd hu hno
          have := Nat.le_of_dvd (by omega) (Nat.dvd_sub hb (hdvd hcond.1))
          omega
        simp only [htry, bind_some, Bool.false_eq_true, if_false]
        by_cases hnext : base + align < wordSize
        · rw [if_pos hnext]
          obtain ⟨r, hr, hresult⟩ := ih (base + align) (by omega) (by omega) (by omega)
            fun _ => Nat.dvd_add (hdvd hcond.1) (Nat.dvd_refl align)
          exact ⟨r, hr, hresult.skip fun b hb hle _ hu => hskip b hb hle hu⟩
        · rw [if_neg hnext]
          refine ⟨_, rfl, .inl ⟨rfl, fun b hb hle hlt hu => ?_⟩⟩
          have := hskip b hb hle hu
          omega
      · simp only [htry, bind_some, if_true]
        exact ⟨_, rfl, .inr ⟨base, hdvd hcond.1, hyes, rfl⟩⟩
    · obtain ⟨r, hr, hge, hfirst⟩ := nextFreePpnAtOrAfter_spec (a := a)
        (show L.base ≤ base + 1 by omega) hlimit
      have hfound (b : ℕ) (hle : base ≤ b) (hlt : b < limit) (hu : RunUsable L a b count) :
          ∃ n, r = some n ∧ n ≤ b := by
        have hb := hu.bits b le_rfl (by omega)
        refine hfirst b (Nat.lt_of_le_of_ne hle ?_) hlt hb
        rintro rfl
        exact hbit hb
      rw [if_neg hbit, hr, bind_some]
      rcases r with _ | next
      · exact ⟨_, rfl, .inl ⟨rfl, fun b _ hle hlt hu => by simpa using hfound b hle hlt hu⟩⟩
      have hnext := hge next rfl
      obtain ⟨aligned, hdvd', hle', hleast, hup⟩ := alignUp_spec next halign
      have hskip (b : ℕ) (hb : align ∣ b) (hle : base ≤ b) (hlt : b < limit)
          (hu : RunUsable L a b count) : aligned ≤ b := by
        obtain ⟨n, ⟨⟩, hn⟩ := hfound b hle hlt hu
        exact hleast b hb hn
      rcases hup with hup | ⟨hbig, hup⟩
      · obtain ⟨r, hr, hresult⟩ := ih aligned (by omega) (by omega) (by omega) fun _ => hdvd'
        exact ⟨r, by simp only [hup, hr], hresult.skip hskip⟩
      refine ⟨(none, a), by simp only [hup], .inl ⟨rfl, fun b hb hle hlt hu => ?_⟩⟩
      have := hskip b hb hle hlt hu
      omega

theorem reserveContiguousPpns_spec (hhint : 0 < L.total → a.hint % L.words * 64 < L.total)
    (count align : ℕ) :
    (∃ err, a.reserveContiguousPpns L count align = some (.error err, a) ∧
      (0 < count → 0 < align → L.base + L.total < wordSize →
        ∀ base, align ∣ base → ¬ RunUsable L a base count)) ∨
      ∃ base, 0 < count ∧ align ∣ base ∧ RunUsable L a base count ∧
        a.reserveContiguousPpns L count align = some (.ok base, a.claimed L base count) := by
  unfold reserveContiguousPpns
  by_cases hbad : count = 0 ∨ align = 0 ∨ L.total < count
  · rw [if_pos hbad]
    refine .inl ⟨_, rfl, fun hcount halign _ base _ hu => ?_⟩
    have := hu.lower
    have := hu.upper
    omega
  rw [if_neg hbad]
  by_cases hend : wordSize ≤ L.base + L.total
  · rw [if_pos hend]
    exact .inl ⟨_, rfl, fun _ _ h => by omega⟩
  rw [if_neg hend]
  have halign : 0 < align := by omega
  obtain ⟨rangeBase, hdvd, hle, hleast, hbase | ⟨hbig, hbase⟩⟩ := alignUp_spec L.base halign
  swap
  · rw [hbase]
    refine .inl ⟨_, rfl, fun _ _ _ base hb hu => ?_⟩
    have := hleast base hb hu.lower
    have := hu.upper
    omega
  rw [hbase]
  simp only
  have hwords := L.covers
  rw [if_neg (by omega : ¬ (L.total = 0 ∨ L.words = 0)), if_pos (hhint (by omega))]
  set hintBase := min ((alignUp (max (L.base + a.hint % L.words * 64) rangeBase) align).getD
    rangeBase) (L.base + L.total) with hdef
  have hhintBase : L.base ≤ hintBase ∧ (hintBase < L.base + L.total → align ∣ hintBase) := by
    obtain ⟨r, hr, hge, -, hup | ⟨-, hup⟩⟩ :=
      alignUp_spec (max (L.base + a.hint % L.words * 64) rangeBase) halign
    all_goals
      simp only [hup, getD_some, getD_none] at hdef
      refine ⟨by omega, fun hlt => ?_⟩
      rwa [hdef, min_eq_left (by omega)]
  have hlimit : hintBase ≤ L.base + L.total := min_le_right _ _
  obtain ⟨r, hr, hresult⟩ := scanRuns_spec (a := a) (not_le.mp hend) (show 0 < count by omega)
    halign le_rfl (L.total + 1) hintBase hhintBase.1 (by omega) (by omega) hhintBase.2
  rw [hr, bind_some]
  rcases hresult with ⟨rfl, hnone⟩ | ⟨base, hb, hu, rfl⟩
  · obtain ⟨r2, hr2, hresult2⟩ := scanRuns_spec (a := a) (not_le.mp hend) (show 0 < count by omega)
      halign hlimit (L.total + 1) rangeBase hle (by omega) (by omega) fun _ => hdvd
    simp only [hr2, map_some]
    rcases hresult2 with ⟨rfl, hnone2⟩ | ⟨base, hb, hu, rfl⟩
    · refine .inl ⟨_, rfl, fun _ _ _ base hb hu => ?_⟩
      have := hu.upper
      rcases Nat.lt_or_ge base hintBase with hlt | hge
      · exact hnone2 base hb (hleast base hb hu.lower) hlt hu
      · exact hnone base hb hge (by omega) hu
    · exact .inr ⟨base, by omega, hb, hu, rfl⟩
  · exact .inr ⟨base, by omega, hb, hu, rfl⟩

lemma returnClaimedRun_spec (n base : ℕ) (a : Alloc) (hlow : L.base ≤ base)
    (hup : base + n ≤ L.base + L.total)
    (hclear : ∀ p, base ≤ p → p < base + n → a.bits (p - L.base) = false) :
    ∃ a', returnClaimedRun L base n a = some a' ∧ a'.metas = a.metas ∧
      a'.free = a.free + .ofNat 64 n ∧
      ∀ i, a'.bits i = if base ≤ L.base + i ∧ L.base + i < base + n then true else a.bits i := by
  induction n generalizing base a with
  | zero => exact ⟨a, rfl, rfl, (BitVec.add_zero _).symm, fun i => (if_neg (by omega)).symm⟩
  | succ n ih =>
    have hcov : L.Covers base := covers_of_run hlow hup le_rfl (by omega)
    rw [returnClaimedRun, denseIndex_eq hcov, bind_some, hclear base le_rfl (by omega)]
    obtain ⟨a', hreturn, hmetas, hfree, hbits⟩ := ih (base + 1)
      { a.setBit (base - L.base) true with free := a.free + 1 } (by omega)
        (by omega) fun p h1 h2 => by
        have hne : p - L.base ≠ base - L.base := by omega
        simpa [setBit, hne] using hclear p (by omega) (by omega)
    refine ⟨a', hreturn, hmetas, ?_, fun i => ?_⟩
    · rw [hfree, Nat.add_comm n 1, BitVec.ofNat_add, ← BitVec.add_assoc]
      rfl
    rw [hbits]
    simp only [setBit, update_apply]
    split_ifs <;> first | rfl | omega

/-- **Reserving a run**: it succeeds exactly if the policy can be met and there is a usable run at a
multiple of `align`, and clears the bits of such a run only; a failure leaves all bits and the count
as they were. -/
theorem reserveRun_finds (count align : ℕ) (policy : ZeroPolicy)
    (hend : L.base + L.total < wordSize) (hhint : 0 < L.total → a.hint % L.words * 64 < L.total)
    (hcount : 0 < count) (halign : 0 < align) :
    ∃ r a', a.reserveRun L count align policy = some (r, a') ∧ a'.metas = a.metas ∧
      match r with
      | .ok base => zeroable L policy = true ∧ align ∣ base ∧ RunUsable L a base count ∧
          a'.bits = (cleared L a base count).bits ∧ a'.free = a.free - .ofNat 64 count
      | .error _ => a'.bits = a.bits ∧ a'.free = a.free ∧
          (zeroable L policy = true → ∀ base, align ∣ base → ¬ RunUsable L a base count) := by
  rcases reserveContiguousPpns_spec hhint count align with
    ⟨err, herr, hnone⟩ | ⟨base, -, hdvd, hu, hok⟩
  · exact ⟨.error err, a, by rw [reserveRun, herr]; rfl, rfl, rfl, rfl,
      fun _ => hnone hcount halign hend⟩
  rw [reserveRun, hok, bind_some]
  cases hz : zeroable L policy with
  | true => exact ⟨.ok base, a.claimed L base count, by simp, rfl, rfl, hdvd, hu, rfl, rfl⟩
  | false =>
    have hlow := hu.lower
    obtain ⟨a', hreturn, hmetas, hfree, hbits⟩ := returnClaimedRun_spec count base
      (a.claimed L base count) hlow hu.upper fun p h1 h2 => if_pos (by omega)
    refine ⟨.error .zeroScrubUnavailable, a', ?_, hmetas, funext fun i => ?_, ?_, by simp⟩
    · simpa [hreturn] using ⟨0, hcount⟩
    · rw [hbits]
      split_ifs with hin
      · simpa using (hu.bits _ hin.1 hin.2).symm
      · exact if_neg hin
    · rw [hfree]
      exact BitVec.sub_add_cancel ..

def fiveFrames (zeroer : Bool) : Layout :=
  ⟨0, 5, 1, zeroer, fun p => 2 ≤ p, fun p => p < 2, by decide, by decide, by decide,
    by grind⟩

theorem reserveRun_finds_fiveFrames :
    ∃ x, (fiveFrames true).boot.reserveRun (fiveFrames true) 2 3 .zeroed = some x := by
  obtain ⟨r, a', h, -⟩ := reserveRun_finds (L := fiveFrames true) (a := (fiveFrames true).boot)
    2 3 .zeroed (by decide) (by decide) (by decide) (by decide)
  exact ⟨_, h⟩

/-- Frames 3 and 4 are usable, but without a zeroer no zeroed run is reserved. -/
theorem reserveRun_without_zeroer :
    RunUsable (fiveFrames false) (fiveFrames false).boot 3 2 ∧
      ((fiveFrames false).boot.reserveRun (fiveFrames false) 2 3 .zeroed).map (·.1.isOk) =
        some false := by
  have hrun (p : ℕ) (h1 : 3 ≤ p) (h2 : p < 3 + 2) : p = 3 ∨ p = 4 := by omega
  refine ⟨⟨⟨by decide, by decide, fun p h1 h2 => ?_⟩, fun p h1 h2 => ?_⟩, by decide⟩
  all_goals rcases hrun p h1 h2 with rfl | rfl <;> decide

end TxKernel.PageAllocator.Alloc
