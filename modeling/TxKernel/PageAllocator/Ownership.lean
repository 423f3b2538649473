import TxKernel.PageAllocator.Books
import TxKernel.PageAllocator.Tokens

/-!
Every operation of the allocator keeps the books of all frames; a run is handled frame by frame.
-/

namespace TxKernel.PageAllocator

open Alloc Function Option List FrameMeta Holders

abbrev Held := ℕ → Holders

namespace Held

def plus (held : Held) (k : Kind) (first count : ℕ) : Held := fun p =>
  if first ≤ p ∧ p < first + count then (held p).add k else held p

variable (held : Held) (k : Kind)

lemma plus_self (first : ℕ) : held.plus k first 1 first = (held first).add k :=
  if_pos (by omega)

lemma plus_of_ne {first p : ℕ} (h : p ≠ first) : held.plus k first 1 p = held p :=
  if_neg (by omega)

lemma plus_zero (first : ℕ) : held.plus k first 0 = held := by
  funext p
  exact if_neg (by omega)

lemma plus_succ (first count : ℕ) :
    held.plus k first (count + 1) = (held.plus k (first + 1) count).plus k first 1 := by
  funext p
  simp only [plus]
  split_ifs <;> first | rfl | omega

lemma plus_snoc (first count : ℕ) :
    held.plus k first (count + 1) = (held.plus k first count).plus k (first + count) 1 := by
  funext p
  simp only [plus]
  split_ifs <;> first | rfl | omega

lemma add_comm (h : Holders) (k l : Kind) : (h.add k).add l = (h.add l).add k := by
  funext j
  simp only [add]
  split_ifs <;> rfl

lemma plus_comm (l : Kind) (first count first' count' : ℕ) :
    (held.plus k first count).plus l first' count' =
      (held.plus l first' count').plus k first count := by
  funext p
  simp only [plus]
  split_ifs
  · exact add_comm _ k l
  · rfl
  · rfl
  · rfl

end Held

structure Books (L : Layout) (a : Alloc) (held : Held) : Prop where
  frames : ∀ i < L.total, FrameOk L (L.base + i) (a.metas i) (a.bits i) (held (L.base + i))
  covered : ∀ p k, 0 < held p k → L.Covers p
  free : a.free = .ofNat 64 (L.freeBits a.bits)
  hint : a.hint = 0 ∨ a.hint * 64 < L.total

lemma countP_range_update (bits : ℕ → Bool) {i n : ℕ} (hi : i < n) (b : Bool) :
    (range n).countP (update bits i b) + (bits i).toNat =
      (range n).countP bits + b.toNat := by
  induction n with
  | zero => omega
  | succ n ih =>
    simp only [range_succ, countP_append, countP_singleton]
    rcases Nat.lt_or_ge i n with h | h
    · rw [update_of_ne (by omega)]
      omega
    obtain rfl : i = n := by omega
    have hsame : (range i).countP (update bits i b) =
        (range i).countP bits := by
      refine countP_congr fun j hj => ?_
      rw [update_of_ne (by have := mem_range.mp hj; omega)]
    rw [hsame, update_self]
    cases b <;> cases bits i <;> simp

namespace Books
variable {L : Layout} {a : Alloc} {held : Held}

lemma clean (hB : Books L a held) : Alloc.Clean L a := fun i hi hb =>
  ⟨((hB.frames i hi).unused_of_bit hb).1, ((hB.frames i hi).unused_of_bit hb).2.1⟩

variable {p : ℕ} {m : FrameMeta} {i : ℕ} {k : Kind}

section

variable {i : ℕ} {held' : Held} (hB : Books L a held) (hi : i < L.total) (hp : p = L.base + i)
  (hheld : ∀ q, q ≠ p → held' q = held q)

include hB hi hp hheld

lemma edit {b : Bool} {free : BitVec 64} {hint : ℕ} (hframe : FrameOk L p m b (held' p))
    (hfree : free = a.free + .ofNat 64 b.toNat - .ofNat 64 (a.bits i).toNat)
    (hhint : hint = 0 ∨ hint * 64 < L.total) :
    Books L { (a.setMeta i m).setBit i b with free := free, hint := hint } held' := by
  subst hp
  refine ⟨fun j hj => ?_, fun q k hq => ?_, ?_, hhint⟩
  · by_cases hji : j = i
    · subst hji
      simpa [setMeta, setBit] using hframe
    · rw [hheld _ (by omega)]
      simpa [setMeta, setBit, update_of_ne hji] using hB.frames j hj
  · by_cases hqi : q = L.base + i
    · subst hqi
      exact ⟨Nat.le_add_right _ _, by omega⟩
    · rw [hheld q hqi] at hq
      exact hB.covered q k hq
  · have hcount := countP_range_update a.bits hi b
    rw [hfree, hB.free, Layout.freeBits, Layout.freeBits, ← BitVec.ofNat_add, ← hcount,
      BitVec.ofNat_add, BitVec.add_sub_cancel]
    rfl

lemma edit_meta (hframe : FrameOk L p m (a.bits i) (held' p)) : Books L (a.setMeta i m) held' := by
  have h := hB.edit hi hp hheld hframe (BitVec.add_sub_cancel ..).symm hB.hint
  rwa [setBit, setMeta, update_eq_self] at h

end

lemma covered_entry (hB : Books L a held) (hcov : L.Covers p) :
    ∃ i < L.total, p = L.base + i ∧ L.denseIndex p = some i ∧
      FrameOk L p (a.metas i) (a.bits i) (held p) := by
  obtain ⟨h1, h2⟩ := hcov
  have hp : L.base + (p - L.base) = p := by omega
  have hframe := hB.frames (p - L.base) (by omega)
  rw [hp] at hframe
  exact ⟨p - L.base, by omega, hp.symm, Layout.denseIndex_eq ⟨h1, h2⟩, hframe⟩

section

variable {k k' : Kind} (hB : Books L a (held.plus k p 1))
include hB

lemma entry : ∃ i < L.total, p = L.base + i ∧ L.denseIndex p = some i ∧
    FrameOk L p (a.metas i) (a.bits i) ((held p).add k) := by
  have h := hB.covered_entry (hB.covered p k (by rw [Held.plus_self, add_self]; omega))
  rwa [Held.plus_self] at h

variable {i : ℕ} (hi : i < L.total) (hp : p = L.base + i)
include hi hp

lemma edit_swap (hframe : FrameOk L p m (a.bits i) ((held p).add k')) :
    Books L (a.setMeta i m) (held.plus k' p 1) := by
  refine hB.edit_meta hi hp (fun q hq => ?_) (Held.plus_self held k' p ▸ hframe)
  rw [Held.plus_of_ne _ _ hq, Held.plus_of_ne _ _ hq]

lemma edit_return (hbit : a.bits i = false) (hframe : FrameOk L p m true (held p)) :
    Books L { (a.setMeta i m).setBit i true with free := a.free + 1 } held :=
  hB.edit hi hp (fun _ hq => (Held.plus_of_ne _ _ hq).symm) hframe (by simp [hbit]) hB.hint

end

lemma edit_take (hB : Books L a held) (hi : i < L.total) (hbit : a.bits i = true)
    (hframe : FrameOk L (L.base + i) m false ((held (L.base + i)).add k)) (hint : ℕ)
    (hhint : hint = 0 ∨ hint * 64 < L.total) :
    Books L { (a.setMeta i m).setBit i false with free := a.free - 1, hint := hint }
      (held.plus k (L.base + i) 1) :=
  hB.edit hi rfl (fun _ hq => Held.plus_of_ne _ _ hq) (Held.plus_self held k _ ▸ hframe)
    (by simp [hbit]) hhint

lemma setMeta_self (a : Alloc) (i : ℕ) : a.setMeta i (a.metas i) = a := by
  simp [setMeta]

/-! ### Operations on one frame -/

theorem rollbackReserved (hB : Books L a (held.plus .reservation p 1)) :
    ∃ a', a.rollbackReserved L p = some a' ∧ Books L a' held := by
  obtain ⟨i, hi, hp, hdense, hframe⟩ := hB.entry
  obtain ⟨hres, hfree⟩ := hframe.rollback
  have hbit := hframe.bit_of_add
  have hreturn := hB.edit_return hi hp hbit hfree
  rw [setMeta_self] at hreturn
  refine ⟨_, ?_, hreturn⟩
  simp [Alloc.rollbackReserved, hdense, Alloc.returnToFreePool, hres, hbit]

theorem reserveFrame (hB : Books L a held) (policy : ZeroPolicy) :
    ∃ r a', a.reserveFrame L policy = some (r, a') ∧
      ((∃ err, r = .error err ∧ Books L a' held) ∨
        ∃ p, r = .ok p ∧ (held p).Idle ∧ Books L a' (held.plus .reservation p 1)) := by
  rcases reserveSinglePpn_spec hB.clean with hnone | ⟨i, hi, hbit, hsome⟩
  · exact ⟨_, _, by rw [Alloc.reserveFrame, hnone], .inl ⟨_, rfl, hB⟩⟩
  have hframe := hB.frames i hi
  rw [hbit] at hframe
  have htake := hB.edit_take hi hbit hframe.reserve (i / 64) (.inr (by omega))
  rw [setMeta_self] at htake
  have htaken : Books L (a.taken i) (held.plus .reservation (L.base + i) 1) := htake
  by_cases hzero : zeroable L policy = true
  · refine ⟨_, _, by simp [Alloc.reserveFrame, hsome, hzero], .inr ⟨_, rfl, ?_, htaken⟩⟩
    exact (hframe.unused_of_bit rfl).2.2
  obtain ⟨a', hroll, hB'⟩ := htaken.rollbackReserved
  exact ⟨.error .zeroScrubUnavailable, a', by simp [Alloc.reserveFrame, hsome, hzero, hroll],
    .inl ⟨_, rfl, hB'⟩⟩

theorem commitReserved (hB : Books L a (held.plus .reservation p 1)) :
    ∃ a', a.commitReserved L p = some a' ∧ Books L a' (held.plus .owner p 1) := by
  obtain ⟨i, hi, hp, hdense, hframe⟩ := hB.entry
  obtain ⟨m, hclaim, hnew⟩ := hframe.commit
  exact ⟨a.setMeta i m, by simp [Alloc.commitReserved, hdense, hclaim], hB.edit_swap hi hp hnew⟩

lemma edit_owned (hB : Books L a held) (hi : i < L.total) (hp : p = L.base + i)
    (hframe : FrameOk L p m (a.bits i) ((held p).add k)) :
    Books L (a.setMeta i m) (held.plus k p 1) :=
  hB.edit_meta hi hp (fun _ hq => Held.plus_of_ne _ _ hq) (Held.plus_self held k p ▸ hframe)

variable {c : Counter} {base count : ℕ}

theorem acquireWith (hB : Books L a held) (hcov : L.Covers p) (hk : k.counter = some c)
    (hrole : k ≠ .owner ∧ k ≠ .pageTable ∧ k ≠ .permanent) :
    ∃ r a', acquireWith L c a p = some (r, a') ∧
      ((∃ err, r = .error err ∧ Books L a' held) ∨ r = .ok () ∧ Books L a' (held.plus k p 1)) := by
  obtain ⟨i, hi, hp, hdense, hframe⟩ := hB.covered_entry hcov
  rcases hframe.acquire hk hrole with ⟨err, herr⟩ | ⟨m, hok, _, hnew⟩
  · exact ⟨.error err, a, by simp [Alloc.acquireWith, hdense, herr], .inl ⟨_, rfl, hB⟩⟩
  · exact ⟨_, _, by simp [Alloc.acquireWith, hdense, hok], .inr ⟨rfl, hB.edit_owned hi hp hnew⟩⟩

theorem acquireDmaPin (hB : Books L a held) (hcov : L.Covers p) :
    ∃ r a', a.acquireDmaPin L p = some (r, a') ∧
      ((∃ err, r = .error err ∧ Books L a' held) ∨
        r = .ok () ∧ Books L a' (held.plus .dma p 1)) := by
  obtain ⟨i, hi, hp, hdense, hframe⟩ := hB.covered_entry hcov
  by_cases hres : (a.metas i).reserved = true
  · exact ⟨.error .reservedFrame, a, by simp [Alloc.acquireDmaPin, hdense, hres],
      .inl ⟨_, rfl, hB⟩⟩
  rcases hframe.acquire (k := .dma) rfl (by decide) with ⟨err, herr⟩ | ⟨m, hok, hsame, hnew⟩
  · exact ⟨.error err, a, by simp [Alloc.acquireDmaPin, hdense, hres, herr], .inl ⟨_, rfl, hB⟩⟩
  refine ⟨_, _, by simp [Alloc.acquireDmaPin, hdense, hres, hok, hsame],
    .inr ⟨rfl, hB.edit_owned hi hp hnew⟩⟩

lemma releaseWhenZero (hB : Books L a (held.plus k p 1)) (hi : i < L.total) (hp : p = L.base + i)
    (hbit : a.bits i = false)
    (hzero : m.state = 0 → m.reserved = false ∧ FrameOk L p m true (held p))
    (hnonzero : m.state ≠ 0 → FrameOk L p m false (held p)) :
    Books L ((a.setMeta i m).releaseWhenZero i m.state) held := by
  by_cases h0 : m.state = 0
  · obtain ⟨hres, hframe⟩ := hzero h0
    have hreturn := hB.edit_return hi hp hbit hframe
    have heq : (a.setMeta i m).releaseWhenZero i m.state =
        { (a.setMeta i m).setBit i true with free := a.free + 1 } := by
      simp [Alloc.releaseWhenZero, h0, Alloc.returnToFreePool, Alloc.setMeta, hres, hbit]
    rw [heq]
    exact hreturn
  · rw [Alloc.releaseWhenZero, if_neg h0]
    exact hB.edit_meta hi hp (fun _ hq => (Held.plus_of_ne _ _ hq).symm) (hbit ▸ hnonzero h0)

theorem releaseWith (hk : k.counter = some c) (hrole : k ≠ .pageTable ∧ k ≠ .permanent)
    (hB : Books L a (held.plus k p 1)) :
    ∃ a', releaseWith L c a p = some a' ∧ Books L a' held := by
  obtain ⟨i, hi, hp, hdense, hframe⟩ := hB.entry
  obtain ⟨m, hdec, _, _, hzero, hnonzero⟩ := hframe.release hk hrole
  exact ⟨_, by simp [Alloc.releaseWith, hdense, hdec],
    hB.releaseWhenZero hi hp hframe.bit_of_add hzero hnonzero⟩

theorem adoptPageTableFrame (hB : Books L a (held.plus .owner p 1)) :
    ∃ a', a.adoptPageTableFrame L p = some a' ∧ Books L a' (held.plus .pageTable p 1) := by
  obtain ⟨i, hi, hp, hdense, hframe⟩ := hB.entry
  refine ⟨a.setMeta i (a.metas i).markReserved.markDirectMapped,
    by simp [Alloc.adoptPageTableFrame, hdense], hB.edit_swap hi hp ?_⟩
  exact hframe.adopt (.inl rfl) rfl rfl
    (by simp [markReserved, markDirectMapped])

theorem adoptPermanentFrame (hB : Books L a (held.plus .owner p 1)) :
    ∃ a', a.adoptPermanentFrame L p = some a' ∧ Books L a' (held.plus .permanent p 1) := by
  obtain ⟨i, hi, hp, hdense, hframe⟩ := hB.entry
  refine ⟨a.setMeta i (a.metas i).markPermanent, by simp [Alloc.adoptPermanentFrame, hdense],
    hB.edit_swap hi hp ?_⟩
  exact hframe.adopt (.inr rfl) rfl rfl (by simp [markPermanent])

theorem releasePageTableFrame (hB : Books L a (held.plus .pageTable p 1)) :
    ∃ a', a.releasePageTableFrame L p = some a' ∧ Books L a' held := by
  obtain ⟨i, hi, hp, hdense, hframe⟩ := hB.entry
  obtain ⟨hperm, m, hdec, hres, hzero, hnonzero⟩ := hframe.teardown
  have hnew := hB.releaseWhenZero hi hp hframe.bit_of_add (fun h0 => ⟨hres, hzero h0⟩) hnonzero
  have hreserved : (a.metas i).clearReserved = some { a.metas i with reserved := false } :=
    if_neg (by rw [hperm]; decide)
  have hdirect : clearDirectMapped { a.metas i with reserved := false } =
      some { a.metas i with reserved := false, directMapped := false } :=
    if_neg (by rw [hperm]; decide)
  refine ⟨_, ?_, hnew⟩
  rw [Alloc.releasePageTableFrame, hdense, bind_some, if_neg (by rw [hperm]; decide),
    hreserved, bind_some, hdirect, bind_some, Alloc.releaseOwned, Alloc.releaseWith,
    hdense, bind_some]
  simp only [setMeta, update_self]
  rw [hdec]
  simp

theorem claimPermanentFrame (hB : Books L a held) (hcov : L.Covers p)
    (hresv : held p .reservation = 0) :
    ∃ r a', a.claimPermanentFrame L p = some (r, a') ∧
      ((∃ err, r = .error err ∧ Books L a' held) ∨
        r = .ok () ∧ (held p).Idle ∧ Books L a' (held.plus .permanent p 1)) := by
  obtain ⟨i, hi, rfl, hdense, hframe⟩ := hB.covered_entry hcov
  rcases hframe.claimPermanent hresv with ⟨err, herr, hbit⟩ | ⟨m, hok, hidle, hnew⟩
  · exact ⟨.error err, a, by simp [claimPermanentFrame, hdense, hbit, herr],
      .inl ⟨_, rfl, hB⟩⟩
  rcases hbit : a.bits i with _ | _
  · refine ⟨_, _, by simp [claimPermanentFrame, hdense, hbit, hok],
      .inr ⟨rfl, hidle, hB.edit_owned hi rfl (hbit ▸ hnew)⟩⟩
  have htake := hB.edit_take hi hbit hnew a.hint hB.hint
  refine ⟨.ok (), _, ?_, .inr ⟨rfl, hidle, htake⟩⟩
  simp [claimPermanentFrame, hdense, hbit, hok, setBit, setMeta]

/-! ### Operations on a run -/

lemma cleared (hB : Books L a held) (hf : Alloc.RunFree L a base count) (n : ℕ) (hn : n ≤ count) :
    Books L { cleared L a base n with free := a.free - .ofNat 64 n }
      (held.plus .reservation base n) := by
  have hlow := hf.lower
  have hup := hf.upper
  induction n with
  | zero =>
    rw [cleared_zero, Held.plus_zero, BitVec.sub_zero]
    exact hB
  | succ n ih =>
    have hprev := ih (by omega)
    obtain ⟨i, hi, hp⟩ : ∃ i < L.total, base + n = L.base + i :=
      ⟨base + n - L.base, by omega, by omega⟩
    have hbit : (Alloc.cleared L a base n).bits i = true := by
      have := hf.bits (base + n) (by omega) (by omega)
      rw [hp, Nat.add_sub_cancel_left] at this
      exact (if_neg (by omega)).trans this
    have hframe := hprev.frames i hi
    simp only [hbit] at hframe
    have htake := hprev.edit_take hi hbit hframe.reserve a.hint hB.hint
    rw [setMeta_self, ← hp, ← Held.plus_snoc] at htake
    have hi' : i = base + n - L.base := by omega
    have hset : (Alloc.cleared L a base n).setBit (base + n - L.base) false =
        Alloc.cleared L a base (n + 1) := Alloc.cleared_succ hlow
    rw [← hset, ← hi', BitVec.ofNat_add, ← BitVec.sub_sub]
    exact htake

theorem returnClaimedRun (n base : ℕ) (hB : Books L a (held.plus .reservation base n)) :
    ∃ a', returnClaimedRun L base n a = some a' ∧ Books L a' held := by
  induction n generalizing a base with
  | zero =>
    rw [Held.plus_zero] at hB
    exact ⟨a, rfl, hB⟩
  | succ n ih =>
    rw [Held.plus_succ] at hB
    obtain ⟨i, hi, hp, hdense, hframe⟩ := hB.entry
    have hbit := hframe.bit_of_add
    have hreturn := hB.edit_return hi hp hbit hframe.rollback.2
    rw [setMeta_self] at hreturn
    obtain ⟨a', hrest, hB'⟩ := ih (base + 1) hreturn
    refine ⟨a', ?_, hB'⟩
    rw [returnClaimedRun, hdense, bind_some, hbit]
    exact hrest

theorem reserveRun (hB : Books L a held) (count align : ℕ) (policy : ZeroPolicy) :
    ∃ r a', a.reserveRun L count align policy = some (r, a') ∧
      ((∃ err, r = .error err ∧ Books L a' held) ∨
        ∃ base, r = .ok base ∧ (∀ p, base ≤ p → p < base + count → (held p).Idle) ∧
          Books L a' (held.plus .reservation base count)) := by
  have hhint (_ : 0 < L.total) : a.hint % L.words * 64 < L.total := by
    have := Nat.mod_le a.hint L.words
    have := hB.hint
    omega
  rcases Alloc.reserveContiguousPpns_spec hhint count align with
    ⟨err, herr, -⟩ | ⟨base, hpos, -, hu, hok⟩
  · exact ⟨.error err, a, by simp [Alloc.reserveRun, herr], .inl ⟨_, rfl, hB⟩⟩
  have hlow := hu.lower
  have hup := hu.upper
  have hbooks := hB.cleared hu.toRunFree count le_rfl
  have hclaimed : Books L (a.claimed L base count) (held.plus .reservation base count) :=
    ⟨hbooks.frames, hbooks.covered, hbooks.free, .inr (by show _ / 64 * 64 < _; omega)⟩
  by_cases hzero : ((range count).all fun _ => zeroable L policy) = true
  · refine ⟨_, _, by rw [Alloc.reserveRun, hok, bind_some]; simp only [hzero, if_true],
      .inr ⟨base, rfl, fun p h1 h2 => ?_, hclaimed⟩⟩
    have hframe := hB.frames (p - L.base) (by omega)
    rw [show L.base + (p - L.base) = p by omega, hu.bits p h1 h2] at hframe
    exact (hframe.unused_of_bit rfl).2.2
  · obtain ⟨a', hreturn, hB'⟩ := hclaimed.returnClaimedRun count base
    refine ⟨.error .zeroScrubUnavailable, a', ?_, .inl ⟨_, rfl, hB'⟩⟩
    rw [Alloc.reserveRun, hok, bind_some]
    simp only [hzero, Bool.false_eq_true, if_false, hreturn]
    rfl

theorem commitReservedRun (n base : ℕ) (hB : Books L a (held.plus .reservation base n)) :
    ∃ a', commitReservedRun L base n a = some a' ∧ Books L a' (held.plus .owner base n) := by
  induction n generalizing a base held with
  | zero =>
    rw [Held.plus_zero] at hB ⊢
    exact ⟨a, rfl, hB⟩
  | succ n ih =>
    rw [Held.plus_succ] at hB
    obtain ⟨a1, hcommit, hB1⟩ := hB.commitReserved
    rw [Held.plus_comm] at hB1
    obtain ⟨a', hrest, hB'⟩ := ih (base + 1) hB1
    rw [Held.plus_comm, ← Held.plus_succ] at hB'
    exact ⟨a', by rw [commitReservedRun, hcommit]; exact hrest, hB'⟩

theorem releaseRun (hk : k.counter = some c) (hrole : k ≠ .pageTable ∧ k ≠ .permanent) (n base : ℕ)
    (hB : Books L a (held.plus k base n)) :
    ∃ a', releaseRun L c base n a = some a' ∧ Books L a' held := by
  induction n generalizing a base with
  | zero =>
    rw [Held.plus_zero] at hB
    exact ⟨a, rfl, hB⟩
  | succ n ih =>
    rw [Held.plus_succ] at hB
    obtain ⟨a1, hrelease, hB1⟩ := hB.releaseWith hk hrole
    obtain ⟨a', hrest, hB'⟩ := ih (base + 1) hB1
    exact ⟨a', by rw [releaseRun, hrelease]; exact hrest, hB'⟩

lemma releaseMapPinsDown (base n : ℕ) (hB : Books L a (held.plus .map base n)) :
    ∃ a', releaseMapPinsDown L base n a = some a' ∧ Books L a' held := by
  induction n generalizing a with
  | zero =>
    rw [Held.plus_zero] at hB
    exact ⟨a, rfl, hB⟩
  | succ n ih =>
    rw [Held.plus_snoc] at hB
    obtain ⟨a1, hrelease, hB1⟩ := hB.releaseWith (c := .mapCount) rfl (by decide)
    obtain ⟨a', hrest, hB'⟩ := ih hB1
    exact ⟨a', by rw [releaseMapPinsDown, releaseMapPin, hrelease]; exact hrest, hB'⟩

theorem acquireMapPinRun (hcov : ∀ p, base ≤ p → p < base + count → L.Covers p)
    (rest acquired : ℕ) (hcount : acquired + rest = count)
    (hB : Books L a (held.plus .map base acquired)) :
    ∃ r a', acquireMapPinRun L base rest acquired a = some (r, a') ∧
      ((∃ err, r = .error err ∧ Books L a' held) ∨
        r = .ok () ∧ Books L a' (held.plus .map base count)) := by
  induction rest generalizing a acquired with
  | zero =>
    obtain rfl : acquired = count := by omega
    exact ⟨_, _, rfl, .inr ⟨rfl, hB⟩⟩
  | succ rest ih =>
    obtain ⟨r, a1, hacq, hcase⟩ := hB.acquireWith (hcov (base + acquired) (by omega) (by omega))
      (k := .map) (c := .mapCount) rfl (by decide)
    rcases hcase with ⟨err, rfl, hB1⟩ | ⟨rfl, hB1⟩
    · obtain ⟨a', hdown, hB'⟩ := hB1.releaseMapPinsDown
      refine ⟨.error err, a', ?_, .inl ⟨_, rfl, hB'⟩⟩
      rw [acquireMapPinRun, acquireMapPin, hacq, bind_some]
      simp [hdown]
    rw [← Held.plus_snoc] at hB1
    obtain ⟨r, a', hrest, hcase'⟩ := ih (acquired + 1) (by omega) hB1
    refine ⟨r, a', ?_, hcase'⟩
    rw [acquireMapPinRun, acquireMapPin, hacq, bind_some]
    exact hrest

end Books

end TxKernel.PageAllocator
