import TxKernel.PageAllocator.Search

/-!
The books of the allocator: for each frame the packed word counts its holders, and the free bit is
set exactly if the frame belongs to the pool and nothing holds it.
-/

namespace TxKernel.PageAllocator

open Holders FrameMeta

/-- The entry of a frame is right. -/
structure FrameOk (L : Layout) (p : ℕ) (m : FrameMeta) (bit : Bool) (h : Holders) : Prop where
  state : m.state = h.packed
  fits : h.Fits
  bit : bit = true ↔ L.pool p = true ∧ h.Idle
  reserved : m.reserved = true ↔ L.firm p = true ∨ 0 < h .pageTable ∨ 0 < h .permanent
  permanent : m.permanent = true ↔ 0 < h .permanent
  exclusive : h .reservation + h .owner + h .pageTable + h .permanent ≤ 1
  fresh : 0 < h .reservation → h.packed = 0
  pooled : ∀ k, 0 < h k → 0 < h .permanent ∨ L.pool p = true

namespace FrameOk
variable {L : Layout} {p : ℕ} {m : FrameMeta} {bit : Bool} {h : Holders}

variable {k : Kind}

lemma pool_of_add (hf : FrameOk L p m bit (h.add k)) (h0 : h .permanent = 0)
    (hk : k ≠ .permanent) : L.pool p = true :=
  (hf.pooled k (by simp)).resolve_left (by rw [add_of_ne _ hk.symm, h0]; exact lt_irrefl 0)

lemma bit_of_add (hf : FrameOk L p m bit (h.add k)) : bit = false := by
  rw [← Bool.not_eq_true, hf.bit]
  exact fun hc => h.not_idle_add k hc.2

lemma held_bit (L : Layout) (p : ℕ) (h : Holders) (k : Kind) :
    false = true ↔ L.pool p = true ∧ (h.add k).Idle :=
  ⟨fun hc => (by cases hc), fun hc => absurd hc.2 (h.not_idle_add k)⟩

lemma exclusive_of_add (hf : FrameOk L p m bit (h.add k)) :
    h .reservation + h .owner + h .pageTable + h .permanent ≤ 1 := by
  have hex := hf.exclusive
  have h1 := h.le_add k .reservation
  have h2 := h.le_add k .owner
  have h3 := h.le_add k .pageTable
  have h4 := h.le_add k .permanent
  omega

lemma idle_of_add_reservation (hf : FrameOk L p m bit (h.add .reservation)) : h.Idle := by
  have hpacked := hf.fresh (by simp)
  rw [packed_add_reservation] at hpacked
  intro k
  by_cases hk : k = .reservation
  · have := hf.exclusive
    rw [add_self] at this
    rw [hk]
    omega
  · exact packed_eq_zero hpacked k hk

variable {c : Counter}

lemma reservation_eq_zero (hk : k.counter = some c) (hf : FrameOk L p m bit (h.add k)) :
    h .reservation = 0 := by
  have hne : (Kind.reservation : Kind) ≠ k := by
    rintro rfl
    cases hk
  by_contra h0
  have hfresh := hf.fresh (by rw [add_of_ne _ hne]; omega)
  have hzero := packed_eq_zero hfresh k hne.symm
  rw [add_self] at hzero
  omega

lemma unused_of_bit (hf : FrameOk L p m bit h) (hb : bit = true) :
    m.reserved = false ∧ m.state = 0 ∧ h.Idle := by
  obtain ⟨hpool, hidle⟩ := hf.bit.mp hb
  refine ⟨?_, ?_, hidle⟩
  · rw [← Bool.not_eq_true, hf.reserved, hidle, hidle, L.pool_firm p hpool]
    simp
  · rw [hf.state]
    simp [packed, refs, hidle _]

theorem reserve (hf : FrameOk L p m true h) : FrameOk L p m false (h.add .reservation) := by
  obtain ⟨hpool, hidle⟩ := hf.bit.mp rfl
  have hne : ∀ k, k ≠ .reservation → h.add .reservation k = h k := fun k hk => h.add_of_ne hk
  refine ⟨hf.state.trans packed_add_reservation.symm,
    ⟨hf.fits.refs, hf.fits.map, hf.fits.cache, hf.fits.dma⟩,
    ?_, ?_, ?_, ?_, fun _ => ?_, fun _ _ => .inr hpool⟩
  · exact held_bit L p h _
  · rw [hne _ (by decide), hne _ (by decide)]
    exact hf.reserved
  · rw [hne _ (by decide)]
    exact hf.permanent
  · rw [add_self, hne _ (by decide), hne _ (by decide), hne _ (by decide), hidle, hidle,
      hidle, hidle]
  · rw [packed_add_reservation, ← hf.state]
    exact (hf.unused_of_bit rfl).2.1

theorem rollback (hf : FrameOk L p m bit (h.add .reservation)) :
    m.reserved = false ∧ FrameOk L p m true h := by
  have hidle := hf.idle_of_add_reservation
  have hpool := hf.pool_of_add (hidle _) (by decide)
  have hne : ∀ k, k ≠ .reservation → h.add .reservation k = h k := fun k hk => h.add_of_ne hk
  refine ⟨?_, hf.state.trans packed_add_reservation, fits_of_add hf.fits,
    ⟨fun _ => ⟨hpool, hidle⟩, fun _ => rfl⟩, ?_, ?_, hf.exclusive_of_add, fun hc => ?_,
    fun _ _ => .inr hpool⟩
  · rw [← Bool.not_eq_true, hf.reserved, hne _ (by decide), hne _ (by decide), hidle, hidle,
      L.pool_firm p hpool]
    simp
  · rw [hf.reserved, hne _ (by decide), hne _ (by decide)]
  · rw [hf.permanent, hne _ (by decide)]
  · rw [hidle] at hc
    omega

theorem commit (hf : FrameOk L p m bit (h.add .reservation)) :
    ∃ m', m.claimOwned = .ok m' ∧ FrameOk L p m' bit (h.add .owner) := by
  have hidle := hf.idle_of_add_reservation
  have hpool := hf.pool_of_add (hidle _) (by decide)
  obtain ⟨hres, hfree⟩ := hf.rollback
  have hstate : m.state = 0 := (hfree.unused_of_bit rfl).2.1
  have hne : ∀ k, k ≠ .owner → h.add .owner k = 0 := fun k hk => (h.add_of_ne hk).trans (hidle k)
  refine ⟨{ m with state := Counter.refcount.one }, by simp [claimOwned, hres, hstate],
    ?_, ?_, ?_, ?_, ?_, ?_, fun hc => ?_, fun _ _ => .inr hpool⟩
  · rw [packed_add rfl, ← hfree.state, hstate]
    exact (Nat.zero_add _).symm
  · refine fits_add hfree.fits (k := .owner) rfl ?_
    rw [← hfree.state, hstate]
    decide
  · rw [hf.bit_of_add]
    exact held_bit L p h _
  · rw [hne _ (by decide), hne _ (by decide), hfree.reserved, hidle, hidle]
  · rw [hne _ (by decide), hfree.permanent, hidle]
  · rw [add_self, hne _ (by decide), hne _ (by decide), hne _ (by decide), hidle]
  · rw [hne _ (by decide)] at hc
    omega

theorem acquire (hf : FrameOk L p m bit h) (hk : k.counter = some c)
    (hrole : k ≠ .owner ∧ k ≠ .pageTable ∧ k ≠ .permanent) :
    (∃ err, m.incrementCounter c = .error err) ∨
      ∃ m', m.incrementCounter c = .ok m' ∧ m'.reserved = m.reserved ∧
        FrameOk L p m' bit (h.add k) := by
  obtain ⟨ho, ht, hp⟩ := hrole
  have hkr : k ≠ .reservation := by
    rintro rfl
    cases hk
  have hne : ∀ l, l ≠ k → h.add k l = h l := fun l hl => h.add_of_ne hl
  by_cases hstate : m.state = 0
  · exact .inl ⟨.invalidRequest, by simp [incrementCounter, hstate]⟩
  have hidle : ¬ h.Idle := fun hc => hstate (by rw [hf.state]; simp [packed, refs, hc _])
  by_cases hfull : c.read m.state = c.mask
  · exact .inl ⟨.counterOverflow, by simp [incrementCounter, hstate, hfull]⟩
  refine .inr ⟨{ m with state := m.state + c.one },
    by simp [incrementCounter, hstate, hfull], rfl, ?_, ?_, ?_, ?_, ?_, ?_, fun hc => ?_,
    fun _ _ => ?_⟩
  · rw [packed_add hk, ← hf.state]
  · exact fits_add hf.fits hk (hf.state ▸ hfull)
  · rw [hf.bit]
    exact ⟨fun hc => absurd hc.2 hidle, fun hc => absurd hc.2 (h.not_idle_add _)⟩
  · rw [hne _ ht.symm, hne _ hp.symm]
    exact hf.reserved
  · rw [hne _ hp.symm]
    exact hf.permanent
  · rw [hne _ ht.symm, hne _ hp.symm, hne _ hkr.symm, hne _ ho.symm]
    exact hf.exclusive
  · rw [hne _ hkr.symm] at hc
    exact absurd (hf.state.trans (hf.fresh hc)) hstate
  · obtain ⟨l, hl⟩ := not_forall.mp hidle
    rw [hne _ hp.symm]
    exact hf.pooled l (Nat.pos_of_ne_zero hl)

/-- A holder that is counted lets go. At zero the frame is not reserved and returns to the pool. -/
theorem release (hk : k.counter = some c) (hrole : k ≠ .pageTable ∧ k ≠ .permanent)
    (hf : FrameOk L p m bit (h.add k)) :
    ∃ m', m.decrementCounter c = .ok m' ∧ m'.state = h.packed ∧ m'.reserved = m.reserved ∧
      (m'.state = 0 → m'.reserved = false ∧ FrameOk L p m' true h) ∧
      (m'.state ≠ 0 → FrameOk L p m' false h) := by
  obtain ⟨ht, hp⟩ := hrole
  have hkr : k ≠ .reservation := by
    rintro rfl
    cases hk
  have hne : ∀ l, l ≠ k → h.add k l = h l := fun l hl => h.add_of_ne hl
  have hread : c.read m.state ≠ 0 := by
    rw [hf.state, read_packed hf.fits hk]
    have := le_field (h := h.add k) hkr
    rw [add_self] at this
    omega
  have hstate : m.state - c.one = h.packed := by
    rw [hf.state, packed_add hk]
    omega
  have hresv := reservation_eq_zero hk hf
  have hreserved : m.reserved = true ↔ L.firm p = true ∨ 0 < h .pageTable ∨ 0 < h .permanent := by
    rw [hf.reserved, hne _ ht.symm, hne _ hp.symm]
  have hpermanent : m.permanent = true ↔ 0 < h .permanent := by rw [hf.permanent, hne _ hp.symm]
  refine ⟨{ m with state := m.state - c.one }, by simp [decrementCounter, hread], hstate,
    rfl, fun h0 => ?_, fun h0 => ?_⟩
  · have hidle : h.Idle := by
      intro l
      by_cases hl : l = .reservation
      · rw [hl]
        exact hresv
      · exact packed_eq_zero (hstate.symm.trans h0) l hl
    have hpool := hf.pool_of_add (hidle _) hp
    refine ⟨?_, hstate, fits_of_add hf.fits, ⟨fun _ => ⟨hpool, hidle⟩, fun _ => rfl⟩,
      hreserved, hpermanent, hf.exclusive_of_add, fun hc => ?_, fun _ _ => .inr hpool⟩
    · show m.reserved = false
      rw [← Bool.not_eq_true, hreserved, hidle, hidle, L.pool_firm p hpool]
      simp
    · omega
  · refine ⟨hstate, fits_of_add hf.fits, ⟨fun hc => (by cases hc), fun hc => ?_⟩, hreserved,
      hpermanent, hf.exclusive_of_add, fun hc => ?_, fun l hl => ?_⟩
    · refine absurd (hstate.trans ?_) h0
      simp [packed, refs, hc.2 _]
    · omega
    · rw [← hne _ hp.symm]
      exact hf.pooled l (Nat.lt_of_lt_of_le hl (h.le_add k l))

lemma adopt (hk : k = .pageTable ∨ k = .permanent) (hf : FrameOk L p m bit (h.add .owner))
    {m' : FrameMeta} (hstate : m'.state = m.state) (hres : m'.reserved = true)
    (hperm : m'.permanent = true ↔ m.permanent = true ∨ k = .permanent) :
    FrameOk L p m' bit (h.add k) := by
  have hcounter : k.counter = some .refcount := by rcases hk with rfl | rfl <;> rfl
  have hpacked : (h.add k).packed = (h.add .owner).packed := by
    rw [packed_add hcounter, packed_add rfl]
  have hex := hf.exclusive
  rw [add_self, add_of_ne _ (by decide), add_of_ne _ (by decide),
    add_of_ne _ (by decide)] at hex
  have hzero : h .permanent = 0 := by omega
  have hpool := hf.pool_of_add hzero (by decide)
  have hnot : m.permanent = true ↔ False := by
    rw [hf.permanent, add_of_ne _ (by decide), hzero]
    simp
  refine ⟨hstate.trans (hf.state.trans hpacked.symm), ?_, ?_, ?_, ?_, ?_, fun hc => ?_,
    fun _ _ => .inr hpool⟩
  · exact fits_refcount rfl hcounter hf.fits
  · rw [hf.bit_of_add]
    exact held_bit L p h _
  · rw [hres]
    rcases hk with rfl | rfl <;> simp
  · rw [hperm, hnot]
    rcases hk with rfl | rfl <;> simp [add, hzero]
  · rcases hk with rfl | rfl <;> simp [add] <;> omega
  · rcases hk with rfl | rfl <;> simp [add] at hc <;> omega

theorem teardown (hf : FrameOk L p m bit (h.add .pageTable)) :
    m.permanent = false ∧ ∃ m', decrementCounter
        { m with reserved := false, directMapped := false } .refcount = .ok m' ∧
      m'.reserved = false ∧ (m'.state = 0 → FrameOk L p m' true h) ∧
      (m'.state ≠ 0 → FrameOk L p m' false h) := by
  have hex := hf.exclusive
  rw [add_self, add_of_ne _ (by decide), add_of_ne _ (by decide),
    add_of_ne _ (by decide)] at hex
  have hpt : h .pageTable = 0 := by omega
  have hpm : h .permanent = 0 := by omega
  have hpool := hf.pool_of_add hpm (by decide)
  have hmperm : m.permanent = false := by
    rw [← Bool.not_eq_true, hf.permanent, add_of_ne _ (by decide), hpm]
    simp
  -- the frame as an owned one, of which the owner lets go
  have howned : FrameOk L p { m with reserved := false, directMapped := false } bit
      (h.add .owner) := by
    have hpacked : (h.add .owner).packed = (h.add .pageTable).packed := by
      rw [packed_add rfl, packed_add rfl]
    refine ⟨hf.state.trans hpacked.symm, ?_, ?_, ?_, ?_, ?_, fun hc => ?_, fun _ _ => .inr hpool⟩
    · exact fits_refcount rfl rfl hf.fits
    · rw [hf.bit_of_add]
      exact held_bit L p h _
    · rw [add_of_ne _ (by decide), add_of_ne _ (by decide), hpt, hpm,
        L.pool_firm p hpool]
      simp
    · rw [add_of_ne _ (by decide), hpm]
      simp [hmperm]
    · simp [add]
      omega
    · rw [add_of_ne _ (by decide)] at hc
      omega
  obtain ⟨m', hdec, _, hres, hzero, hnonzero⟩ := howned.release (c := .refcount) rfl (by decide)
  exact ⟨hmperm, m', hdec, hres, fun h0 => (hzero h0).2, hnonzero⟩

theorem claimPermanent (hf : FrameOk L p m bit h) (hresv : h .reservation = 0) :
    (∃ err, m.claimPermanent = .error err ∧ bit = false) ∨
      ∃ m', m.claimPermanent = .ok m' ∧ h.Idle ∧
        FrameOk L p m'.markPermanent false (h.add .permanent) := by
  by_cases h0 : m.state = 0
  · have hidle : h.Idle := by
      intro l
      by_cases hl : l = .reservation
      · rw [hl]
        exact hresv
      · exact packed_eq_zero (hf.state.symm.trans h0) l hl
    have hne : ∀ k, k ≠ .permanent → h.add .permanent k = 0 := fun k hk =>
      (h.add_of_ne hk).trans (hidle k)
    refine .inr ⟨{ m with state := Counter.refcount.one },
      by simp [FrameMeta.claimPermanent, h0], hidle, ?_, ?_, ?_, ?_, ?_, ?_, fun hc => ?_,
      fun _ _ => .inl (by simp)⟩
    · rw [packed_add rfl, ← hf.state, h0]
      exact (Nat.zero_add _).symm
    · refine fits_add hf.fits (k := .permanent) rfl ?_
      rw [← hf.state, h0]
      decide
    · exact held_bit L p h _
    · simp [markPermanent]
    · simp [markPermanent]
    · rw [add_self, hne _ (by decide), hne _ (by decide), hne _ (by decide), hidle]
    · rw [hne _ (by decide)] at hc
      omega
  · refine .inl ⟨.invalidRequest, by simp [FrameMeta.claimPermanent, h0], ?_⟩
    rw [← Bool.not_eq_true]
    exact fun hb => h0 (hf.unused_of_bit hb).2.1

end FrameOk

end TxKernel.PageAllocator
