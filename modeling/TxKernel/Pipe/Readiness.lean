import TxKernel.Pipe.Transfer

/-!
The levels that polling reads, against what a nonblocking call then answers. The write level counts
the room behind the last buffer, which no packet uses.
-/

namespace TxKernel.Pipe

open List PipeRing

namespace PipePayload

def readableLevel (p : PipePayload) : Bool := !p.ring.isEmpty || p.writerCount == 0

def writableLevel (p : PipePayload) : Bool :=
  if p.readerCount = 0 then true else 0 < p.ring.availableWriteCapacity

/-- The pipes that calls and transfers lead to. -/
inductive Reachable : PipePayload → Prop
  | new : Reachable new
  | step {p p' : PipePayload} {c : PipeCall} {a : PipeAnswer} (h : Reachable p)
      (hstep : p.step c = some (p', a)) : Reachable p'
  | transfer {src dst src' dst' p : PipePayload} {len : ℕ} {nonblocking packetMode : Bool}
      {o : StepOutcome ℕ} (hs : Reachable src) (hd : Reachable dst)
      (h : src.stepSpliceToPipe dst len nonblocking packetMode = some (src', dst', o) ∨
        src.stepTeeToPipe dst len nonblocking packetMode = some (src', dst', o))
      (hp : p = src' ∨ p = dst') : Reachable p

def Refused {α : Type} (r : Option (PipePayload × StepOutcome α)) : Prop :=
  r.map Prod.snd = some (.err .eagain)

/-- The read level says whether nonblocking reads of at least one byte are answered. -/
def ReadLevelAgrees (p : PipePayload) : Prop :=
  ∀ len, 0 < len → (p.readableLevel = true ↔ ¬ Refused (p.stepRead len true))

def AtomicWritesAnswered (p : PipePayload) (packetMode : Bool) : Prop :=
  ∀ bytes, bytes ≠ [] → bytes.length ≤ pipeBufLimit → ¬ Refused (p.stepWrite bytes true packetMode)

variable {p : PipePayload}

lemma Reachable.sound (h : Reachable p) : p.ring.Sound := by
  induction h with
  | new => exact sound_new
  | @step p p' c a _ hstep ih =>
    obtain ⟨q, b, hq, hexp⟩ := explained_step ih c
    obtain ⟨rfl, -⟩ : q = p' ∧ b = a := by simpa [hq] using hstep
    exact hexp.sound
  | @transfer src dst src' dst' p len nonblocking packetMode o _ _ h hp hs hd =>
    suffices hboth : src'.ring.Sound ∧ dst'.ring.Sound by
      rcases hp with rfl | rfl
      · exact hboth.1
      · exact hboth.2
    obtain ⟨n, r', d', hdrain, hspec⟩ := drainLoop_spec len le_rfl hs hd le_rfl
    obtain ⟨m, d'', rest, htee, hsound, -⟩ := teeLoop_spec packetMode len hs.bufs hd
    rcases transfer_cases src dst len nonblocking packetMode with
      ⟨o', hsplice, htee', -⟩ | ⟨-, o', -, hsplice, htee'⟩
    · rw [hsplice, htee'] at h
      obtain ⟨rfl, rfl, -⟩ : src = src' ∧ dst = dst' ∧ o' = o := by simpa using h
      exact ⟨hs, hd⟩
    rw [hsplice, htee', drainToRing, hdrain, teeToRing, htee] at h
    simp only [Option.map_some, Option.some.injEq, Prod.mk.injEq] at h
    obtain ⟨rfl, rfl, -⟩ | ⟨rfl, rfl, -⟩ := h
    · exact ⟨hspec.soundSrc, hspec.soundDst⟩
    · exact ⟨hs, hsound⟩

lemma readLevelAgrees (p : PipePayload) : ReadLevelAgrees p := by
  intro len hlen
  unfold stepRead readableLevel onEmpty Refused
  rw [if_neg (Nat.pos_iff_ne_zero.mp hlen)]
  cases p.ring.isEmpty with
  | true => by_cases hw : p.writerCount = 0 <;> simp [hw]
  | false => cases p.ring.drainToSlice len <;> simp

/-- A small write is refused exactly if the ring has no room for it as a whole. -/
lemma refused_stepWrite (h : p.ring.Sound) (hreaders : p.readerCount ≠ 0) {bytes : List UInt8}
    (hne : bytes ≠ []) (hlen : bytes.length ≤ pipeBufLimit) (packetMode : Bool) :
    Refused (p.stepWrite bytes true packetMode) ↔
      p.ring.canWriteAtomic bytes.length packetMode = false := by
  unfold stepWrite Refused
  rw [if_neg hne, if_neg hreaders]
  cases hatomic : p.ring.canWriteAtomic bytes.length packetMode with
  | false => simp [hlen, onFull]
  | true =>
    have hpos := length_pos_iff.mpr hne
    have hroom : (!p.ring.isFull || decide (0 < p.ring.availableWriteCapacity)) = true := by
      unfold canWriteAtomic at hatomic
      cases packetMode <;> simp_all
      omega
    obtain ⟨ring, hfill, -⟩ := fillFromSlice_spec h bytes packetMode
    rw [min_fillCapacity_of_atomic hlen hatomic] at hfill
    simp [hroom, hfill, hpos]

lemma canWriteAtomic_page {r : PipeRing} (h : r.Sound) (packetMode : Bool) :
    r.canWriteAtomic pipeBufLimit packetMode = !r.isFull := by
  have hlt := tailMerge_lt h
  cases packetMode with
  | true => simp [canWriteAtomic]
  | false =>
    rw [Bool.eq_iff_iff]
    simp only [canWriteAtomic, isFull, Bool.false_eq_true, if_false, decide_eq_true_eq,
      Bool.not_eq_true', decide_eq_false_iff_not]
    simp only [availableWriteCapacity, freeSlots, userPageSize, pipeBufLimit] at hlt ⊢
    omega

lemma atomicWritesAnswered_iff (h : p.ring.Sound) (packetMode : Bool) :
    p.AtomicWritesAnswered packetMode ↔ p.readerCount = 0 ∨ p.ring.isFull = false := by
  by_cases hreaders : p.readerCount = 0
  · simp +contextual [AtomicWritesAnswered, hreaders, stepWrite, Refused]
  have hpage := canWriteAtomic_page h packetMode
  constructor
  · intro hall
    have hne : replicate pipeBufLimit (0 : UInt8) ≠ [] := ne_nil_of_length_pos (by simp; decide)
    have hlen : (replicate pipeBufLimit (0 : UInt8)).length ≤ pipeBufLimit := by simp
    have hanswered := hall _ hne hlen
    rw [refused_stepWrite h hreaders hne hlen, length_replicate, hpage] at hanswered
    simpa using Or.inr hanswered
  · intro hfree bytes hne hlen
    rw [refused_stepWrite h hreaders hne hlen]
    unfold canWriteAtomic at hpage ⊢
    cases packetMode <;> simp_all
    omega

/-- **The levels of polling** in every reachable pipe: the read level says what a nonblocking read
does, and the write level what nonblocking writes do, unless there are readers, no slot is free and
there is room behind the last buffer. -/
theorem levels_agree (h : Reachable p) :
    ReadLevelAgrees p ∧ ∀ packetMode,
      ((p.writableLevel = true ↔ p.AtomicWritesAnswered packetMode) ↔
        p.readerCount = 0 ∨ p.ring.isFull = false ∨ p.ring.tailMerge = 0) := by
  refine ⟨readLevelAgrees p, fun packetMode => ?_⟩
  rw [atomicWritesAnswered_iff h.sound, writableLevel]
  have hfull := isFull_iff p.ring
  by_cases hreaders : p.readerCount = 0
  · simp [hreaders]
  rcases Nat.eq_zero_or_pos p.ring.freeSlots with hfree | hfree
  · simp [hreaders, hfull.mpr hfree, availableWriteCapacity, hfree]
  · simp [hreaders, isFull_of_free hfree, availableWriteCapacity, hfree, userPageSize]

lemma Reachable.run (h : Reachable p) {calls : List PipeCall} {r : PipePayload × List PipeAnswer}
    (hrun : Runs.run PipePayload.step p calls = some r) : Reachable r.1 := by
  induction calls generalizing p r with
  | nil => rwa [← Option.some.inj hrun]
  | cons c calls ih =>
    rcases hstep : p.step c with _ | ⟨q, a⟩
    · simp [Runs.run, hstep] at hrun
    simp only [Runs.run, hstep] at hrun
    obtain ⟨r', hr', rfl⟩ := Option.map_eq_some_iff.mp hrun
    exact ih (r := r') (h.step hstep) hr'

def fillTwoSlots : List PipeCall := [.setSize 8192, .write [7] true false, .write [8] true true]

theorem levels_agree_twoSlots :
    ∃ p, Reachable p ∧ p.ring.isFull = true ∧ p.readableLevel = true ∧ p.writableLevel = false ∧
      ReadLevelAgrees p ∧ (p.writableLevel = true ↔ p.AtomicWritesAnswered true) := by
  have hrun : ∃ r, Runs.run PipePayload.step new fillTwoSlots = some r ∧ r.1.ring.isFull = true ∧
      r.1.readableLevel = true ∧ r.1.writableLevel = false ∧ r.1.ring.tailMerge = 0 := by
    have hsome : (Runs.run PipePayload.step new fillTwoSlots).any (fun r => r.1.ring.isFull &&
        r.1.readableLevel && !r.1.writableLevel && r.1.ring.tailMerge == 0) = true := by
      decide +kernel
    simpa [Option.any_eq_true, and_assoc] using hsome
  obtain ⟨r, hr, hfull, hread, hwrite, htail⟩ := hrun
  have hlevels := levels_agree (Reachable.new.run hr)
  exact ⟨r.1, Reachable.new.run hr, hfull, hread, hwrite, hlevels.1,
    (hlevels.2 true).mpr (.inr (.inr htail))⟩

/-- A pipe of one page that holds one byte counts as writable, and refuses a packet of one byte. -/
theorem writable_and_refused :
    (do
      let (p, _) ← Runs.run PipePayload.step new [.setSize 4096, .write [7] true false]
      let (_, o) ← p.stepWrite [8] true true
      some (p.writableLevel, o)) = some (true, .err .eagain) := by
  decide +kernel

end PipePayload

end TxKernel.Pipe
