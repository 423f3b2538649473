import Mathlib.Data.List.Perm.Basic
import TxKernel.Library.Runs
import TxKernel.PageAllocator.Ownership

/-!
Physical frames and their owners, over all sequences of operations on tokens.
-/

namespace TxKernel.PageAllocator

open scoped List

lemma holders_cons (t : Token) (ts : List Token) :
    holders (t :: ts) = Held.plus (holders ts) t.kind t.first t.count := by
  funext p k
  have hcons : holders (t :: ts) p k =
      holders ts p k + if t.kind = k ∧ t.Holds p then 1 else 0 := by
    simp [holders, List.countP_cons]
  rw [hcons, Held.plus]
  by_cases hp : t.Holds p
  · rw [if_pos (show t.first ≤ p ∧ p < t.first + t.count from hp)]
    by_cases hk : t.kind = k
    · subst hk
      simp [hp]
    · simp [hk, Holders.add_of_ne _ (Ne.symm hk)]
  · rw [if_neg (show ¬ (t.first ≤ p ∧ p < t.first + t.count) from hp)]
    simp [hp]

variable {t : Token}

lemma Token.eq_of_holds_one {p : ℕ} (h : t.Holds p) (hcount : t.count = 1) : p = t.first := by
  have h1 := h.1
  have h2 := h.2
  omega

def Token.Ok : Token → Prop
  | .ownedFrameRunIter _ count next => next ≤ count
  | _ => True

namespace World
variable (L : Layout)

/-- The packed word of each frame counts the tokens that hold it, its free bit is set exactly if it
is a frame of the pool that no token holds, and the free count is the number of free bits. -/
structure Owned (w : World) : Prop where
  state : ∀ i < L.total, (w.alloc.metas i).state = (holders w.tokens (L.base + i)).packed
  fits : ∀ i < L.total, (holders w.tokens (L.base + i)).Fits
  bit : ∀ i < L.total, w.alloc.bits i = true ↔
    L.pool (L.base + i) = true ∧ (holders w.tokens (L.base + i)).Idle
  free : w.alloc.free.toNat = L.freeBits w.alloc.bits

/-- A number of a frame is one of the covered ones, and a permanent claim is not made on a frame
that is just reserved. -/
def Admissible (w : World) : Op → Prop
  | .claimPermanentFrame ppn => L.Covers ppn ∧ holders w.tokens ppn .reservation = 0
  | .acquireMapPin ppn | .acquireCachePin ppn | .acquireDmaPin ppn | .acquireGiftPin ppn =>
    L.Covers ppn
  | _ => True

instance (w : World) (op : Op) : Decidable (w.Admissible L op) :=
  match op with
  | .claimPermanentFrame ppn =>
    inferInstanceAs (Decidable (L.Covers ppn ∧ holders w.tokens ppn .reservation = 0))
  | .acquireMapPin ppn | .acquireCachePin ppn | .acquireDmaPin ppn | .acquireGiftPin ppn =>
    inferInstanceAs (Decidable (L.Covers ppn))
  | .reserveFrame _ | .reserveRun _ _ _ | .commit _ | .dropToken _ | .split _ | .iterNext _
  | .tryMapPin _ | .tryMapPinRun _ | .tryCachePin _ | .tryDmaPin _ | .tryGiftPin _
  | .intoPageTableFrame _ | .intoPermanentFrame _ | .releaseForPmapTeardown _ =>
    isTrue trivial

/-- What the allocator hands out is held by no token. -/
def HandsOutFresh (w : World) (op : Op) (w' : World) : Prop :=
  match op with
  | .reserveFrame _ | .reserveRun _ _ _ | .claimPermanentFrame _ =>
    w'.tokens = w.tokens ∨
      ∃ t, w'.tokens = t :: w.tokens ∧ ∀ p, t.Holds p → (holders w.tokens p).Idle
  | _ => True

/-- The frames that have come back to the pool are those whose last token is gone. -/
def ReturnsLast (w w' : World) : Prop :=
  ∀ i < L.total, w.alloc.bits i = false →
    (w'.alloc.bits i = true ↔ L.pool (L.base + i) = true ∧
      ¬ (holders w.tokens (L.base + i)).Idle ∧ (holders w'.tokens (L.base + i)).Idle)

structure Balanced (w : World) : Prop where
  books : Books L w.alloc (holders w.tokens)
  ok : ∀ t ∈ w.tokens, t.Ok

variable {L} {w w' : World} {i : ℕ}

lemma Balanced.owned (hB : w.Balanced L) : w.Owned L := by
  refine ⟨fun i hi => (hB.books.frames i hi).state, fun i hi => (hB.books.frames i hi).fits,
    fun i hi => (hB.books.frames i hi).bit, ?_⟩
  have hle : L.freeBits w.alloc.bits ≤ L.total := by
    simpa [Layout.freeBits] using List.countP_le_length (p := w.alloc.bits)
      (l := List.range L.total)
  rw [hB.books.free, BitVec.toNat_ofNat]
  exact Nat.mod_eq_of_lt (Nat.lt_of_le_of_lt hle L.total_lt)

lemma Balanced.returnsLast (hB : w.Balanced L) (hB' : w'.Balanced L) : ReturnsLast L w w' := by
  intro i hi hbit
  have hbefore := (hB.books.frames i hi).bit
  rw [hbit] at hbefore
  rw [(hB'.books.frames i hi).bit]
  constructor
  · rintro ⟨hpool, hidle⟩
    exact ⟨hpool, fun hc => by simpa using hbefore.mpr ⟨hpool, hc⟩, hidle⟩
  · rintro ⟨hpool, _, hidle⟩
    exact ⟨hpool, hidle⟩

theorem balanced_boot : (boot L).Balanced L := by
  have hnone : ∀ p, holders (boot L).tokens p = fun _ => 0 := fun _ => rfl
  refine ⟨⟨fun i hi => ?_, fun p k hp => ?_, rfl, .inl rfl⟩, fun t ht => (by cases ht)⟩
  · rw [hnone]
    refine ⟨rfl, ⟨by decide, by decide, by decide, by decide⟩, ?_, ?_, ?_, by decide, fun _ => rfl,
      fun k h => absurd h (lt_irrefl 0)⟩
    · show (decide (i < L.total) && L.pool (L.base + i)) = true ↔ _
      simp only [hi, decide_true, Bool.true_and]
      exact ⟨fun h => ⟨h, fun k => rfl⟩, fun h => h.1⟩
    · show L.firm (L.base + i) = true ↔ L.firm (L.base + i) = true ∨ 0 < 0 ∨ 0 < 0
      simp
    · show false = true ↔ 0 < 0
      simp
  · exact absurd hp (lt_irrefl 0)

lemma Balanced.take (hB : w.Balanced L) (h : w.tokens[i]? = some t) :
    Books L w.alloc (Held.plus (holders (w.tokens.eraseIdx i)) t.kind t.first t.count) := by
  obtain ⟨hi, rfl⟩ := List.getElem?_eq_some_iff.mp h
  have hperm : holders (w.tokens.get ⟨i, hi⟩ :: w.tokens.eraseIdx i) = holders w.tokens := by
    funext p k
    exact (List.getElem_cons_eraseIdx_perm hi).countP_eq _
  rw [← holders_cons]
  exact hperm ▸ hB.books

lemma Balanced.ok_rest (hB : w.Balanced L) (i : ℕ) : ∀ t ∈ w.tokens.eraseIdx i, t.Ok :=
  fun t ht => hB.ok t (List.mem_of_mem_eraseIdx ht)

lemma Balanced.covers (hB : w.Balanced L) (h : w.tokens[i]? = some t) {p : ℕ} (hp : t.Holds p) :
    L.Covers p := by
  refine hB.books.covered p t.kind (List.countP_pos_iff.mpr ⟨t, List.mem_of_getElem? h, ?_⟩)
  simp [hp]

/-- An operation goes through, keeps the books, and hands out only what nothing holds. -/
def Served (L : Layout) (w : World) (op : Op) : Prop :=
  ∃ w' ans, step L w op = some (w', ans) ∧ w'.Balanced L ∧ w.HandsOutFresh op w'

section Serving
variable {op : Op} {i : ℕ}

section

variable (hw : w.Balanced L) {next : Option Alloc} {α : Type} {r : Except AllocError α} {a : Alloc}

include hw

lemma Balanced.served_same (h : step L w op = some (w, none)) : Served L w op := by
  refine ⟨w, none, h, hw, ?_⟩
  cases op <;> first | exact .inl rfl | trivial

lemma Balanced.served_replace (t : Token) (h : step L w op = next.map (w.replace i [t]))
    (hnext : ∃ a', next = some a' ∧
      Books L a' (Held.plus (holders (w.tokens.eraseIdx i)) t.kind t.first t.count))
    (hf : w.HandsOutFresh op (w.replace i [t] (next.getD w.alloc)).1) (ht : t.Ok) :
    Served L w op := by
  obtain ⟨a', rfl, hB⟩ := hnext
  refine ⟨_, _, h, ⟨?_, fun u hu => ?_⟩, hf⟩
  · show Books L a' (holders (t :: w.tokens.eraseIdx i))
    rw [holders_cons]
    exact hB
  · rcases List.mem_cons.mp hu with rfl | hu
    · exact ht
    · exact hw.ok_rest i u hu

lemma Balanced.served_drop (h : step L w op = next.map (w.replace i []))
    (hnext : ∃ a', next = some a' ∧ Books L a' (holders (w.tokens.eraseIdx i)))
    (hf : w.HandsOutFresh op (w.replace i [] (next.getD w.alloc)).1) : Served L w op := by
  obtain ⟨a', rfl, hB⟩ := hnext
  exact ⟨_, _, h, ⟨hB, hw.ok_rest i⟩, hf⟩

lemma Balanced.served_grant (token : α → Token) (htoken : ∀ x, (token x).Ok)
    (h : step L w op = some (w.grant token (r, a)))
    (hcase : (∃ err, r = .error err ∧ Books L a (holders w.tokens)) ∨ ∃ x, r = .ok x ∧
      Books L a (Held.plus (holders w.tokens) (token x).kind (token x).first (token x).count))
    (hf : w.HandsOutFresh op (w.grant token (r, a)).1) : Served L w op := by
  refine ⟨_, _, h, ?_, hf⟩
  rcases hcase with ⟨err, rfl, hB⟩ | ⟨x, rfl, hB⟩
  · exact ⟨hB, hw.ok⟩
  refine ⟨?_, fun u hu => ?_⟩
  · show Books L a (holders (token x :: w.tokens))
    rw [holders_cons]
    exact hB
  · rcases List.mem_cons.mp hu with rfl | hu
    · exact htoken x
    · exact hw.ok u hu

lemma Balanced.served_pin (t : Token) {acquired : Option (Except AllocError Unit × Alloc)}
    (h : step L w op = acquired.map (w.grant fun _ => t))
    (hacquired : ∃ r a', acquired = some (r, a') ∧
      ((∃ err, r = .error err ∧ Books L a' (holders w.tokens)) ∨
        r = .ok () ∧ Books L a' (Held.plus (holders w.tokens) t.kind t.first t.count)))
    (ht : t.Ok) (hf : ∀ w', w.HandsOutFresh op w') : Served L w op := by
  obtain ⟨r, a', rfl, hcase⟩ := hacquired
  refine hw.served_grant (fun _ => t) (fun _ => ht) h ?_ (hf _)
  rcases hcase with herr | ⟨rfl, hB⟩
  · exact .inl herr
  · exact .inr ⟨(), rfl, hB⟩

lemma Balanced.served_fresh (token : α → Token) (h : step L w op = some (w.grant token (r, a)))
    (hcase : (∃ err, r = .error err ∧ Books L a (holders w.tokens)) ∨ ∃ x, r = .ok x ∧
      (∀ p, (token x).Holds p → (holders w.tokens p).Idle) ∧
      Books L a (Held.plus (holders w.tokens) (token x).kind (token x).first (token x).count))
    (hop : ∀ w' : World, (w'.tokens = w.tokens ∨ ∃ t, w'.tokens = t :: w.tokens ∧
      ∀ p, t.Holds p → (holders w.tokens p).Idle) → w.HandsOutFresh op w')
    (htoken : ∀ x, (token x).Ok) : Served L w op := by
  rcases hcase with ⟨err, rfl, hB⟩ | ⟨x, rfl, hidle, hB⟩
  · exact hw.served_grant token htoken h (.inl ⟨err, rfl, hB⟩) (hop _ (.inl rfl))
  · exact hw.served_grant token htoken h (.inr ⟨x, rfl, hB⟩) (hop _ (.inr ⟨token x, rfl, hidle⟩))

end

end Serving

lemma release_books {a : Alloc} {held : Held} (t : Token)
    (ht : t.kind ≠ .pageTable ∧ t.kind ≠ .permanent)
    (hB : Books L a (held.plus t.kind t.first t.count)) :
    ∃ a', release L a t = some a' ∧ Books L a' held := by
  cases t with
  | frameReservation ppn => exact hB.rollbackReserved
  | frameRunReservation base count => exact hB.returnClaimedRun count base
  | ownedFrame ppn => exact hB.releaseWith rfl ht
  | ownedFrameRun base count => exact hB.releaseRun rfl ht count base
  | ownedFrameRunIter base count next => exact hB.releaseRun rfl ht (count - next) (base + next)
  | mapPin ppn => exact hB.releaseWith rfl ht
  | mapPinRun base count => exact hB.releaseRun rfl ht count base
  | cachePin ppn | dmaPin ppn | giftPin ppn => exact hB.releaseWith rfl ht
  | ptFrame ppn => exact absurd rfl ht.1
  | permanentFrame ppn => exact absurd rfl ht.2

section

variable (hw : w.Balanced L) {op : Op} {i : ℕ}
include hw

lemma served_reserveFrame (policy : ZeroPolicy) : Served L w (.reserveFrame policy) := by
  obtain ⟨r, a', hr, hcase⟩ := hw.books.reserveFrame policy
  refine hw.served_fresh .frameReservation (by rw [step, hr]; rfl) (hcase.imp_right ?_)
    (fun _ h => h) fun _ => trivial
  rintro ⟨p, rfl, hidle, hB⟩
  exact ⟨p, rfl, fun q hq => Token.eq_of_holds_one hq rfl ▸ hidle, hB⟩

lemma served_reserveRun (count align : ℕ) (policy : ZeroPolicy) :
    Served L w (.reserveRun count align policy) := by
  obtain ⟨r, a', hr, hcase⟩ := hw.books.reserveRun count align policy
  refine hw.served_fresh (.frameRunReservation · count) (by rw [step, hr]; rfl)
    (hcase.imp_right ?_) (fun _ h => h) fun _ => trivial
  rintro ⟨base, rfl, hidle, hB⟩
  exact ⟨base, rfl, fun q hq => hidle q hq.1 hq.2, hB⟩

lemma served_claimPermanentFrame {ppn : ℕ} (hop : w.Admissible L (.claimPermanentFrame ppn)) :
    Served L w (.claimPermanentFrame ppn) := by
  obtain ⟨r, a', hr, hcase⟩ := hw.books.claimPermanentFrame hop.1 hop.2
  refine hw.served_fresh (fun _ => .permanentFrame ppn) (by rw [step, hr]; rfl)
    (hcase.imp_right ?_) (fun _ h => h) fun _ => trivial
  rintro ⟨rfl, hidle, hB⟩
  exact ⟨(), rfl, fun q hq => Token.eq_of_holds_one hq rfl ▸ hidle, hB⟩

lemma served_dropToken (i : ℕ) : Served L w (.dropToken i) := by
  rcases ht : w.tokens[i]? with _ | t
  · exact hw.served_same (by simp [step, ht])
  by_cases hk : t.kind ≠ .pageTable ∧ t.kind ≠ .permanent
  · refine hw.served_drop ?_ (release_books t hk (hw.take ht)) trivial
    cases t <;> first | exact absurd rfl hk.1 | exact absurd rfl hk.2 | simp [step, ht]
  · refine hw.served_same ?_
    cases t <;> first | exact absurd ⟨Kind.noConfusion, Kind.noConfusion⟩ hk | simp [step, ht]

lemma served_iterNext (i : ℕ) : Served L w (.iterNext i) := by
  rcases ht : w.tokens[i]? with _ | t
  · exact hw.served_same (by simp [step, ht])
  cases t with
  | ownedFrameRunIter base count next =>
    by_cases hend : next = count
    · exact hw.served_same (by simp [step, ht, hend])
    have hle : next ≤ count := hw.ok _ (List.mem_of_getElem? ht)
    refine ⟨_, _, by simp only [step, ht, if_neg hend]; rfl, ⟨?_, fun u hu => ?_⟩, trivial⟩
    · have hB : Books L w.alloc
          (Held.plus (holders (w.tokens.eraseIdx i)) .owner (base + next) (count - next)) :=
        hw.take ht
      have hcount : count - next = count - (next + 1) + 1 := by omega
      rw [hcount, Held.plus_succ] at hB
      show Books L w.alloc (holders (.ownedFrame (base + next) ::
        .ownedFrameRunIter base count (next + 1) :: w.tokens.eraseIdx i))
      rw [holders_cons, holders_cons]
      exact hB
    · rcases List.mem_cons.mp hu with rfl | hu
      · trivial
      rcases List.mem_cons.mp hu with rfl | hu
      · show next + 1 ≤ count
        omega
      · exact hw.ok_rest i u hu
  | _ => exact hw.served_same (by simp [step, ht])

lemma served_exchange
    (hop : op = .commit i ∨ op = .split i ∨ op = .intoPageTableFrame i ∨
      op = .intoPermanentFrame i ∨ op = .releaseForPmapTeardown i) :
    Served L w op := by
  rcases ht : w.tokens[i]? with _ | t
  · rcases hop with rfl | rfl | rfl | rfl | rfl <;>
      exact hw.served_same (by simp [step, ht])
  have hB := hw.take ht
  rcases hop with rfl | rfl | rfl | rfl | rfl
  · cases t with
    | frameReservation ppn =>
      exact hw.served_replace (.ownedFrame ppn) (by simp only [step, ht]; rfl)
        hB.commitReserved trivial trivial
    | frameRunReservation base count =>
      exact hw.served_replace (.ownedFrameRun base count) (by simp only [step, ht])
        (hB.commitReservedRun count base) trivial trivial
    | _ => exact hw.served_same (by simp [step, ht])
  · cases t with
    | ownedFrameRun base count =>
      exact hw.served_replace (.ownedFrameRunIter base count 0) (by simp only [step, ht]; rfl)
        ⟨_, rfl, hB⟩ trivial (Nat.zero_le count)
    | _ => exact hw.served_same (by simp [step, ht])
  · cases t with
    | ownedFrame ppn =>
      exact hw.served_replace (.ptFrame ppn) (by simp only [step, ht]; rfl)
        hB.adoptPageTableFrame trivial trivial
    | _ => exact hw.served_same (by simp [step, ht])
  · cases t with
    | ownedFrame ppn =>
      exact hw.served_replace (.permanentFrame ppn) (by simp only [step, ht]; rfl)
        hB.adoptPermanentFrame trivial trivial
    | _ => exact hw.served_same (by simp [step, ht])
  · cases t with
    | ptFrame ppn =>
      exact hw.served_drop (by simp only [step, ht]; rfl) hB.releasePageTableFrame trivial
    | _ => exact hw.served_same (by simp [step, ht])

lemma served_acquire {p : ℕ} (hcov : L.Covers p)
    (hop : op = .acquireMapPin p ∨ op = .acquireCachePin p ∨ op = .acquireDmaPin p ∨
      op = .acquireGiftPin p) : Served L w op := by
  rcases hop with rfl | rfl | rfl | rfl
  · exact hw.served_pin (.mapPin p) rfl
      (hw.books.acquireWith hcov (k := .map) rfl (by decide)) trivial fun _ => trivial
  · exact hw.served_pin (.cachePin p) rfl
      (hw.books.acquireWith hcov (k := .cache) rfl (by decide)) trivial fun _ => trivial
  · exact hw.served_pin (.dmaPin p) rfl (hw.books.acquireDmaPin hcov) trivial fun _ => trivial
  · exact hw.served_pin (.giftPin p) rfl
      (hw.books.acquireWith hcov (k := .gift) rfl (by decide)) trivial fun _ => trivial

lemma served_pins
    (hop : op = .tryMapPin i ∨ op = .tryCachePin i ∨ op = .tryDmaPin i ∨ op = .tryGiftPin i) :
    Served L w op := by
  rcases ht : w.tokens[i]? with _ | t
  · rcases hop with rfl | rfl | rfl | rfl <;> exact hw.served_same (by simp [step, ht])
  cases t with
  | ownedFrame ppn =>
    have hcov := hw.covers ht (p := ppn) ⟨le_rfl, Nat.lt_succ_self _⟩
    have hsame (op' : Op) (hstep : step L w op = step L w op')
        (hf : ∀ w', w.HandsOutFresh op w') (h : Served L w op') : Served L w op := by
      obtain ⟨w', ans, hw', hbal, -⟩ := h
      exact ⟨w', ans, hstep.trans hw', hbal, hf w'⟩
    rcases hop with rfl | rfl | rfl | rfl
    · exact hsame (.acquireMapPin ppn) (by simp only [step, ht]) (fun _ => trivial)
        (served_acquire hw hcov (by simp))
    · exact hsame (.acquireCachePin ppn) (by simp only [step, ht]) (fun _ => trivial)
        (served_acquire hw hcov (by simp))
    · exact hsame (.acquireDmaPin ppn) (by simp only [step, ht]) (fun _ => trivial)
        (served_acquire hw hcov (by simp))
    · exact hsame (.acquireGiftPin ppn) (by simp only [step, ht]) (fun _ => trivial)
        (served_acquire hw hcov (by simp))
  | _ =>
    rcases hop with rfl | rfl | rfl | rfl <;> exact hw.served_same (by simp [step, ht])

lemma served_tryMapPinRun (i : ℕ) : Served L w (.tryMapPinRun i) := by
  rcases ht : w.tokens[i]? with _ | t
  · exact hw.served_same (by simp [step, ht])
  cases t with
  | ownedFrameRun base count =>
    have hB : Books L w.alloc (Held.plus (holders w.tokens) .map base 0) := by
      rw [Held.plus_zero]
      exact hw.books
    exact hw.served_pin (.mapPinRun base count) (by simp only [step, ht]; rfl)
      (Books.acquireMapPinRun (fun p h1 h2 => hw.covers ht ⟨h1, h2⟩) count 0 (Nat.zero_add count)
        hB) trivial fun _ => trivial
  | _ => exact hw.served_same (by simp [step, ht])

end

/-- **Every operation goes through, keeps the books, and hands out only frames that nothing
holds.** -/
theorem served (hw : w.Balanced L) {op : Op} (hop : w.Admissible L op) : Served L w op := by
  cases op with
  | reserveFrame policy => exact served_reserveFrame hw policy
  | reserveRun count align policy => exact served_reserveRun hw count align policy
  | dropToken i => exact served_dropToken hw i
  | iterNext i => exact served_iterNext hw i
  | tryMapPinRun i => exact served_tryMapPinRun hw i
  | claimPermanentFrame ppn => exact served_claimPermanentFrame hw hop
  | commit i | split i | intoPageTableFrame i | intoPermanentFrame i | releaseForPmapTeardown i =>
    exact served_exchange hw (i := i) (by simp)
  | tryMapPin i | tryCachePin i | tryDmaPin i | tryGiftPin i =>
    exact served_pins hw (i := i) (by simp)
  | acquireMapPin ppn | acquireCachePin ppn | acquireDmaPin ppn | acquireGiftPin ppn =>
    exact served_acquire hw (p := ppn) hop (by simp)

/-- **Frame ownership**: however the tokens are used, nothing panics, the books balance, frames are
handed out only when no token holds them, and they come back to the pool exactly when their last
token goes. -/
theorem frame_ownership (L : Layout) (ops : List Op)
    (hops : Runs.Guarded (step L) (Admissible L) (boot L) ops) :
    ∃ w answers, Runs.run (step L) (boot L) ops = some (w, answers) ∧ w.Owned L ∧
      ∀ op, w.Admissible L op → ∃ w' answer, step L w op = some (w', answer) ∧
        w'.Owned L ∧ w.HandsOutFresh op w' ∧ ReturnsLast L w w' := by
  obtain ⟨w, answers, hrun, hw⟩ := Runs.run_guarded (Balanced L)
    (fun w op hw hop => by
      obtain ⟨w', answer, hstep, hw', _⟩ := served hw hop
      exact ⟨w', answer, hstep, hw'⟩) ops balanced_boot hops
  refine ⟨w, answers, hrun, hw.owned, fun op hop => ?_⟩
  obtain ⟨w', answer, hstep, hw', hfresh⟩ := served hw hop
  exact ⟨w', answer, hstep, hw'.owned, hfresh, hw.returnsLast hw'⟩

def fourFrames : Layout where
  base := 100
  total := 4
  words := 1
  zeroer := true
  pool p := decide (p < 103)
  firm p := decide (103 ≤ p)
  total_lt := Nat.le_of_ble_eq_true rfl
  fits := Nat.le_of_ble_eq_true rfl
  covers := Nat.le_of_ble_eq_true rfl
  pool_firm _ hp := decide_eq_false (Nat.not_le.mpr (of_decide_eq_true hp))

/-- A run of two frames that is split, a pin that outlives its frame, a claim, and a pin on the
claimed frame. -/
def splitAndPin : List Op :=
  [.reserveRun 2 1 .zeroed, .commit 0, .split 0, .iterNext 0, .tryMapPin 0, .dropToken 1,
    .dropToken 0, .dropToken 0, .claimPermanentFrame 103, .acquireMapPin 103]

theorem frame_ownership_fourFrames :
    Runs.Guarded (step fourFrames) (Admissible fourFrames) (boot fourFrames) splitAndPin ∧
      ∃ w answers, Runs.run (step fourFrames) (boot fourFrames) splitAndPin = some (w, answers) ∧
        w.Owned fourFrames ∧
        ∀ op, w.Admissible fourFrames op → ∃ w' answer,
          step fourFrames w op = some (w', answer) ∧ w'.Owned fourFrames ∧
            w.HandsOutFresh op w' ∧ ReturnsLast fourFrames w w' :=
  have hops : Runs.Guarded (step fourFrames) (Admissible fourFrames) (boot fourFrames)
      splitAndPin := by decide +kernel
  ⟨hops, frame_ownership fourFrames splitAndPin hops⟩

end World

end TxKernel.PageAllocator
