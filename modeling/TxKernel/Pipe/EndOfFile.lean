import TxKernel.Library.Runs
import TxKernel.Pipe.Items
import TxKernel.Pipe.Payload

/-!
The end of the stream, under interleaving. A reader looks at the ring under its lock and, if it was
empty, at the count of writers after the lock was released; steps of writers fall in between.
-/

namespace TxKernel.Pipe

open PipePayload PipeRing Option

namespace PipePayload

def writeSection (p : PipePayload) (bytes : List UInt8) (nonblocking packetMode : Bool) :
    Option (PipePayload × StepOutcome ℕ) :=
  if bytes.length ≤ pipeBufLimit && !p.ring.canWriteAtomic bytes.length packetMode then
    some (p, onFull nonblocking)
  else if !p.ring.isFull || 0 < p.ring.availableWriteCapacity then do
    let (copied, ring) ← p.ring.fillFromSlice bytes packetMode
    if 0 < copied then some ({ p with ring }, .done copied)
    else some ({ p with ring }, onFull nonblocking)
  else some (p, onFull nonblocking)

/-- The part of a read or peek of at least one byte that holds the lock. There is no answer if the
ring is empty. -/
def readSection (p : PipePayload) (peek : Bool) (len : ℕ) :
    Option (PipePayload × Option (List UInt8)) :=
  if p.ring.isEmpty then some (p, none)
  else if peek then do
    let out ← p.ring.copyToSlice len
    some (p, some out)
  else do
    let (out, ring) ← p.ring.drainToSlice len
    some ({ p with ring }, some out)

lemma stepWrite_eq (p : PipePayload) (bytes : List UInt8) (nonblocking packetMode : Bool) :
    p.stepWrite bytes nonblocking packetMode =
      if bytes = [] then some (p, .done 0)
      else if p.readerCount = 0 then some (p, .err .epipe)
      else p.writeSection bytes nonblocking packetMode := rfl

lemma stepRead_stepPeek_eq (p : PipePayload) (peek : Bool) (len : ℕ) (nonblocking : Bool) :
    (if peek then p.stepPeek len nonblocking else p.stepRead len nonblocking) =
      if len = 0 then some (p, .done [])
      else (p.readSection peek len).map fun r =>
        (r.1, r.2.elim (r.1.onEmpty [] nonblocking) .done) := by
  unfold stepPeek stepRead readSection
  split_ifs
  any_goals rfl
  · cases p.ring.copyToSlice len <;> rfl
  · cases p.ring.drainToSlice len <;> rfl

variable {p : PipePayload} {len : ℕ}

lemma writeSection_spec (h : p.ring.Sound) (bytes : List UInt8) (nonblocking packetMode : Bool) :
    ∃ p' o, p.writeSection bytes nonblocking packetMode = some (p', o) ∧ p'.ring.Sound ∧
      p'.readerCount = p.readerCount ∧ p'.writerCount = p.writerCount := by
  obtain ⟨ring, hfill, -, hsound, -⟩ := fillFromSlice_spec h bytes packetMode
  unfold writeSection
  split_ifs
  · exact ⟨p, _, rfl, h, rfl, rfl⟩
  · simp only [hfill, bind_eq_bind, bind_some]
    split_ifs
    · exact ⟨_, _, rfl, hsound, rfl, rfl⟩
    · exact ⟨_, _, rfl, hsound, rfl, rfl⟩
  · exact ⟨p, _, rfl, h, rfl, rfl⟩

lemma readItems_ne_nil {r : PipeRing} (h : r.Sound) (hne : r.isEmpty = false) (hlen : 0 < len) :
    (readItems len r.items).1 ≠ [] := by
  rcases hbufs : r.bufs with _ | ⟨front, rest⟩
  · simp [isEmpty, hbufs] at hne
  have hfront : front.Valid := h.bufs front (by simp [hbufs])
  have hcontent : front.content ≠ [] := by
    rw [← List.length_pos_iff, hfront.length_content]
    exact hfront.nonempty
  have hitems : r.items = front.items ++ rest.flatMap PipeBuf.items := by
    simp [items, hbufs]
  have hlen' := Nat.pos_iff_ne_zero.mp hlen
  rw [hitems]
  cases hp : front.isPacket with
  | true =>
    have hpacket : front.items = [.packet front.content] := by simp [PipeBuf.items, hp]
    simp [hpacket, readItems_packet hlen, hcontent, hlen']
  | false =>
    have hstream : front.items = front.content.map .byte := by simp [PipeBuf.items, hp]
    simp [hstream, readItems_bytes, hcontent, hlen']

lemma readSection_spec (h : p.ring.Sound) (peek : Bool) (hlen : 0 < len) :
    (p.ring.isEmpty = true ∧ p.readSection peek len = some (p, none)) ∨
      ∃ p' out, p.readSection peek len = some (p', some out) ∧ out ≠ [] ∧ p'.ring.Sound ∧
        p'.writerCount = p.writerCount := by
  unfold readSection
  cases hempty : p.ring.isEmpty with
  | true => exact .inl ⟨rfl, rfl⟩
  | false =>
    have hne := readItems_ne_nil h hempty hlen
    cases peek with
    | true => exact .inr ⟨p, _, by simp [copyToSlice_spec h], hne, h, rfl⟩
    | false =>
      obtain ⟨ring, hdrain, -, hsound, -⟩ := drainToSlice_spec h len
      exact .inr ⟨{ p with ring }, _, by simp [hdrain], hne, hsound, rfl⟩

end PipePayload

/-! ### Atomic steps -/

inductive ReaderState
  | idle
  /-- The ring was empty, and the count of writers is looked at next. -/
  | sawEmpty (len : ℕ) (nonblocking : Bool)
  deriving DecidableEq

inductive WriterState
  | idle
  /-- There was a reader, and the ring is filled next. -/
  | checked (bytes : List UInt8) (nonblocking packetMode : Bool)
  | closed
  deriving DecidableEq

inductive Act
  | readRing (peek : Bool) (len : ℕ) (nonblocking : Bool)
  | loadWriters
  | loadReaders (i : ℕ) (bytes : List UInt8) (nonblocking packetMode : Bool)
  | fillRing (i : ℕ)
  | addWriter (i : ℕ)
  | closeWriter (i : ℕ)

inductive Reply
  | none
  | reader (len : ℕ) (o : StepOutcome (List UInt8))
  | writer (i : ℕ) (o : StepOutcome ℕ)
  deriving DecidableEq

structure Racing where
  pipe : PipePayload
  reader : ReaderState
  writers : List WriterState

namespace Racing

def new : Racing := ⟨.new, .idle, [.idle]⟩

/-- One atomic step. A step that its task cannot take now does nothing. -/
def step (s : Racing) : Act → Option (Racing × Reply)
  | .readRing peek len nonblocking =>
    match s.reader with
    | .idle =>
      if len = 0 then some (s, .reader 0 (.done []))
      else do
        let (pipe, out) ← s.pipe.readSection peek len
        match out with
        | some out => some ({ s with pipe }, .reader len (.done out))
        | none => some ({ s with pipe, reader := .sawEmpty len nonblocking }, .none)
    | .sawEmpty _ _ => some (s, .none)
  | .loadWriters =>
    match s.reader with
    | .idle => some (s, .none)
    | .sawEmpty len nonblocking =>
      some ({ s with reader := .idle }, .reader len (s.pipe.onEmpty [] nonblocking))
  | .loadReaders i bytes nonblocking packetMode =>
    match s.writers[i]? with
    | some .idle =>
      if bytes = [] then some (s, .writer i (.done 0))
      else if s.pipe.readerCount = 0 then some (s, .writer i (.err .epipe))
      else
        some ({ s with writers := s.writers.set i (.checked bytes nonblocking packetMode) }, .none)
    | _ => some (s, .none)
  | .fillRing i =>
    match s.writers[i]? with
    | some (.checked bytes nonblocking packetMode) => do
      let (pipe, o) ← s.pipe.writeSection bytes nonblocking packetMode
      some ({ s with pipe, writers := s.writers.set i .idle }, .writer i o)
    | _ => some (s, .none)
  | .addWriter i =>
    match s.writers[i]? with
    | some .idle =>
      some ({ s with pipe := s.pipe.incrWriter, writers := s.writers ++ [.idle] }, .none)
    | _ => some (s, .none)
  | .closeWriter i =>
    match s.writers[i]? with
    | some .idle =>
      some ({ s with pipe := s.pipe.decrWriter, writers := s.writers.set i .closed }, .none)
    | _ => some (s, .none)

/-- The last writer does not close while a reader that saw the ring empty has not looked at the
count of writers and bytes were written since. -/
def Unhurried (s : Racing) (a : Act) : Prop :=
  match a with
  | .closeWriter i =>
    s.writers[i]? = some .idle → s.reader ≠ .idle → s.pipe.writerCount = 1 →
      s.pipe.ring.isEmpty = true
  | _ => True

instance (s : Racing) (a : Act) : Decidable (Unhurried s a) := by
  cases a <;> unfold Unhurried <;> infer_instance

def isOpen (w : WriterState) : Bool := w != .closed

structure Inv (unhurried : Prop) (s : Racing) : Prop where
  sound : s.pipe.ring.Sound
  count : s.pipe.writerCount = s.writers.countP isOpen
  waiting : ∀ len nonblocking, s.reader = .sawEmpty len nonblocking →
    0 < len ∧ (unhurried → s.pipe.ring.isEmpty = false → s.pipe.writerCount ≠ 0)

variable {unhurried : Prop} {s : Racing} {i : ℕ} {w w' : WriterState}

lemma inv_new : Inv unhurried new := ⟨sound_new, rfl, by simp [new]⟩

lemma countP_set_open (h : s.writers[i]? = some w) (hw : isOpen w = true) (hw' : isOpen w' = true) :
    (s.writers.set i w').countP isOpen = s.writers.countP isOpen := by
  obtain ⟨hi, rfl⟩ := List.getElem?_eq_some_iff.mp h
  have hpos : 0 < s.writers.countP isOpen := List.countP_pos_iff.mpr ⟨_, List.getElem_mem hi, hw⟩
  rw [List.countP_set hi, hw, hw']
  simp only [if_true]
  omega

lemma Inv.writerCount_pos (hs : Inv unhurried s) (h : s.writers[i]? = some w)
    (hw : isOpen w = true) : 0 < s.pipe.writerCount := by
  rw [hs.count]
  exact List.countP_pos_iff.mpr ⟨w, List.mem_of_getElem? h, hw⟩

lemma Inv.step (hs : Inv unhurried s) (a : Act) (ha : unhurried → Unhurried s a) :
    ∃ s' r, s.step a = some (s', r) ∧ Inv unhurried s' := by
  cases a with
  | readRing peek len nonblocking =>
    cases hr : s.reader with
    | sawEmpty _ _ => exact ⟨s, _, by simp only [Racing.step, hr]; rfl, hs⟩
    | idle =>
      by_cases hlen : len = 0
      · exact ⟨s, _, by simp only [Racing.step, hr, hlen, if_true]; rfl, hs⟩
      have hpos := Nat.pos_of_ne_zero hlen
      rcases readSection_spec hs.sound peek hpos with
        ⟨hempty, hread⟩ | ⟨p', out, hread, -, hsound, hcount⟩
      · refine ⟨{ s with reader := .sawEmpty len nonblocking }, .none, ?_, hs.sound, hs.count, ?_⟩
        · simp [Racing.step, hr, hlen, hread]
        rintro len' nonblocking' h
        obtain ⟨rfl, rfl⟩ := ReaderState.sawEmpty.inj h
        exact ⟨hpos, fun _ hne => by simp [hempty] at hne⟩
      · refine ⟨{ s with pipe := p' }, .reader len (.done out), ?_, hsound, ?_, ?_⟩
        · simp [Racing.step, hr, hlen, hread]
        · exact hcount.trans hs.count
        intro _ _ h
        exact absurd (hr.symm.trans h) (by simp)
  | loadWriters =>
    cases hr : s.reader with
    | idle => exact ⟨s, .none, by simp [Racing.step, hr], hs⟩
    | sawEmpty len nonblocking =>
      exact ⟨{ s with reader := .idle }, _, by simp only [Racing.step, hr]; rfl, hs.sound, hs.count,
        by simp⟩
  | loadReaders i bytes nonblocking packetMode =>
    rcases hw : s.writers[i]? with _ | _ | _ | _
    all_goals try (refine ⟨s, .none, ?_, hs⟩; simp [Racing.step, hw]; done)
    · by_cases hbytes : bytes = []
      · exact ⟨s, _, by simp only [Racing.step, hw, hbytes, if_true]; rfl, hs⟩
      by_cases hreader : s.pipe.readerCount = 0
      · exact ⟨s, _, by simp only [Racing.step, hw, hbytes, if_false, hreader, if_true]; rfl, hs⟩
      refine ⟨{ s with writers := s.writers.set i (.checked bytes nonblocking packetMode) }, .none,
        by simp [Racing.step, hw, hbytes, hreader], hs.sound, ?_, hs.waiting⟩
      exact hs.count.trans (countP_set_open hw rfl rfl).symm
  | fillRing i =>
    rcases hw : s.writers[i]? with _ | _ | ⟨bytes, nonblocking, packetMode⟩ | _
    all_goals try (refine ⟨s, .none, ?_, hs⟩; simp [Racing.step, hw]; done)
    · -- whatever is written, this writer is still counted
      obtain ⟨p', o, hwrite, hsound, -, hcount⟩ :=
        writeSection_spec hs.sound bytes nonblocking packetMode
      have hpos := hs.writerCount_pos hw rfl
      refine ⟨{ s with pipe := p', writers := s.writers.set i .idle }, .writer i o,
        by simp [Racing.step, hw, hwrite], hsound, ?_, ?_⟩
      · exact hcount.trans (hs.count.trans (countP_set_open hw rfl rfl).symm)
      intro len nonblocking h
      exact ⟨(hs.waiting len nonblocking h).1, fun _ _ => by simp only [hcount]; omega⟩
  | addWriter i =>
    rcases hw : s.writers[i]? with _ | _ | _ | _
    all_goals try (refine ⟨s, .none, ?_, hs⟩; simp [Racing.step, hw]; done)
    · refine ⟨{ s with pipe := s.pipe.incrWriter, writers := s.writers ++ [.idle] }, .none,
        by simp [Racing.step, hw], hs.sound, ?_, ?_⟩
      · simp [incrWriter, hs.count, isOpen]
      intro len nonblocking h
      exact ⟨(hs.waiting len nonblocking h).1, fun _ _ => by simp [incrWriter]⟩
  | closeWriter i =>
    rcases hw : s.writers[i]? with _ | _ | _ | _
    all_goals try (refine ⟨s, .none, ?_, hs⟩; simp [Racing.step, hw]; done)
    · have hpos := hs.writerCount_pos hw rfl
      have hcount : s.pipe.decrWriter.writerCount = s.pipe.writerCount - 1 := rfl
      refine ⟨{ s with pipe := s.pipe.decrWriter, writers := s.writers.set i .closed }, .none,
        by simp [Racing.step, hw], hs.sound, ?_, ?_⟩
      · obtain ⟨hi, hopen⟩ := List.getElem?_eq_some_iff.mp hw
        rw [hcount, hs.count, List.countP_set hi, hopen]
        simp [isOpen]
      intro len nonblocking h
      refine ⟨(hs.waiting len nonblocking h).1, fun hu hne hzero => ?_⟩
      -- the count is zero now, so this was the last writer, and the ring was empty
      have hreader : s.reader ≠ .idle := by
        intro hidle
        exact absurd (hidle.symm.trans h) (by simp)
      have hone : s.pipe.writerCount = 1 := by
        simp only [hcount] at hzero
        omega
      have hempty : s.pipe.ring.isEmpty = true := ha hu hw hreader hone
      have hne' : s.pipe.ring.isEmpty = false := hne
      simp [hempty] at hne'

lemma Inv.unread_of_done (hs : Inv True s) {a : Act} {s' : Racing} {len : ℕ}
    (h : s.step a = some (s', .reader len (.done []))) (hlen : 0 < len) :
    s'.pipe.ring.items = [] := by
  cases a with
  | readRing peek len' nonblocking =>
    cases hr : s.reader with
    | sawEmpty _ _ => simp [Racing.step, hr] at h
    | idle =>
      by_cases hlen' : len' = 0
      · simp only [Racing.step, hr, hlen', if_true, some.injEq, Prod.mk.injEq,
          Reply.reader.injEq] at h
        omega
      rcases readSection_spec hs.sound peek (Nat.pos_of_ne_zero hlen') with
        ⟨-, hread⟩ | ⟨p', out, hread, hne, -⟩
      · simp [Racing.step, hr, hlen', hread] at h
      · simp [Racing.step, hr, hlen', hread, hne] at h
  | loadWriters =>
    cases hr : s.reader with
    | idle => simp [Racing.step, hr] at h
    | sawEmpty len' nonblocking =>
      simp only [Racing.step, hr, some.injEq, Prod.mk.injEq, Reply.reader.injEq, onEmpty] at h
      obtain ⟨rfl, rfl, hdone⟩ := h
      have hzero : s.pipe.writerCount = 0 := by
        by_contra hzero
        split_ifs at hdone
      have hempty : s.pipe.ring.isEmpty = true := by
        by_contra hempty
        exact (hs.waiting _ _ hr).2 trivial (Bool.not_eq_true _ |>.mp hempty) hzero
      simp [items, show s.pipe.ring.bufs = [] from List.isEmpty_iff.mp hempty]
  | loadReaders i bytes nonblocking packetMode =>
    simp only [Racing.step] at h
    split at h
    · split_ifs at h <;> simp at h
    · simp at h
  | fillRing i =>
    simp only [Racing.step] at h
    split at h
    · simp [bind_eq_some_iff] at h
    · simp at h
  | addWriter i | closeWriter i =>
    simp only [Racing.step] at h
    split at h <;> simp at h

/-- The reader that is overtaken by a write and the last close is told the end of the stream. -/
lemma Inv.hurried (hs : Inv unhurried s) (h : ¬ Unhurried s (.closeWriter i)) :
    ∃ s₁ s₂ len, s.step (.closeWriter i) = some (s₁, .none) ∧
      s₁.step .loadWriters = some (s₂, .reader len (.done [])) ∧ 0 < len ∧
      s₂.pipe.ring.items ≠ [] := by
  simp only [Unhurried, Classical.not_imp] at h
  obtain ⟨hw, hreader, hone, hne⟩ := h
  cases hr : s.reader with
  | idle => exact absurd hr hreader
  | sawEmpty len nonblocking =>
    have hcount : s.pipe.decrWriter.writerCount = 0 := by simp [decrWriter, hone]
    refine ⟨{ s with pipe := s.pipe.decrWriter, writers := s.writers.set i .closed },
      { s with pipe := s.pipe.decrWriter, writers := s.writers.set i .closed, reader := .idle },
        len,
      by simp [Racing.step, hw], ?_, (hs.waiting len nonblocking hr).1, ?_⟩
    · simp [Racing.step, hr, onEmpty, hcount]
    intro hitems
    have hbufs : s.pipe.ring.bufs ≠ [] := by simpa [isEmpty] using hne
    obtain ⟨front, rest, hfront⟩ := List.exists_cons_of_ne_nil hbufs
    have hvalid : front.Valid := hs.sound.bufs front (by simp [hfront])
    have hitems' : s.pipe.ring.items = [] := hitems
    simp [items, hfront, hvalid.items_ne_nil] at hitems'

/-- **No premature end**: a reader is told the end of the stream only when no bytes are unread, in
every interleaving in which the last writer never closes between its look at the empty ring and its
look at the count of writers, with bytes written in between; and where it does close there, bytes
are unread. -/
theorem no_premature_end (acts : List Act) :
    (Runs.Guarded step Unhurried new acts →
      ∃ s replies, Runs.run step new acts = some (s, replies) ∧
        ∀ a s' len, s.step a = some (s', .reader len (.done [])) → 0 < len →
          s'.pipe.ring.items = []) ∧
    ∀ s replies i, Runs.run step new acts = some (s, replies) → ¬ Unhurried s (.closeWriter i) →
      ∃ s₁ s₂ len, s.step (.closeWriter i) = some (s₁, .none) ∧
        s₁.step .loadWriters = some (s₂, .reader len (.done [])) ∧ 0 < len ∧
        s₂.pipe.ring.items ≠ [] := by
  constructor
  · intro hacts
    obtain ⟨s, replies, hrun, hs⟩ := Runs.run_guarded (Inv True)
      (fun s a hs ha => hs.step a fun _ => ha) acts inv_new hacts
    exact ⟨s, replies, hrun, fun a s' len hstep hlen => hs.unread_of_done hstep hlen⟩
  intro s replies i hrun hclose
  obtain ⟨s', replies', hrun', hs⟩ := Runs.run_total (Inv False)
    (fun s a hs => hs.step a False.elim) acts inv_new
  obtain ⟨rfl, -⟩ := Prod.mk.inj (some.inj (hrun.symm.trans hrun'))
  exact hs.hurried hclose

theorem no_premature_end_closedLater :
    ∃ s replies, Runs.run step new [.readRing false 8 false, .loadReaders 0 [7] false false,
        .fillRing 0, .loadWriters, .closeWriter 0] = some (s, replies) ∧
      ∀ a s' len, s.step a = some (s', .reader len (.done [])) → 0 < len →
        s'.pipe.ring.items = [] :=
  (no_premature_end _).1 (by decide +kernel)

/-- The writer writes and closes in between, and the byte is still in the ring. -/
theorem premature_end :
    (Runs.run step new [.readRing false 8 false, .loadReaders 0 [7] false false, .fillRing 0,
        .closeWriter 0, .loadWriters]).map (fun r => (r.2.getLast?, r.1.pipe.ring.items)) =
      some (some (.reader 8 (.done [])), [.byte 7]) := by
  decide +kernel

end Racing

end TxKernel.Pipe
