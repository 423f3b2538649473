import TxKernel.Library.Runs
import TxKernel.Pipe.Items
import TxKernel.Pipe.Payload

/-!
A pipe is a stream, over every sequence of its steps: what was accepted is, in order, what was taken
and what is still in the ring.
-/

namespace TxKernel.Pipe

open List PipeRing

/-! ### Calls -/

inductive PipeCall
  | read (len : ℕ) (nonblocking : Bool)
  | peek (len : ℕ) (nonblocking : Bool)
  | write (bytes : List UInt8) (nonblocking packetMode : Bool)
  | pushPageLease (lease : LeasePart) (nonblocking packetMode : Bool)
  | popPageLease (nonblocking : Bool)
  | reserveGiftSlot (nonblocking : Bool)
  | commitGift (gift : UserPageGift) (packetMode : Bool)
  | releaseGiftSlot
  | pushGift (gift : UserPageGift) (nonblocking packetMode : Bool)
  | popGift (nonblocking : Bool)
  | setSize (requested : ℕ)
  | incrReader
  | incrWriter
  | decrReader
  | decrWriter

inductive PipeAnswer
  | bytes (o : StepOutcome (List UInt8))
  | count (o : StepOutcome ℕ)
  | page (o : StepOutcome (Option PipeBuf))
  | slot (o : StepOutcome Unit)
  | size (r : Except Errno ℕ)
  | none

def PipePayload.step (p : PipePayload) : PipeCall → Option (PipePayload × PipeAnswer)
  | .read len nonblocking => (p.stepRead len nonblocking).map fun r => (r.1, .bytes r.2)
  | .peek len nonblocking => (p.stepPeek len nonblocking).map fun r => (r.1, .bytes r.2)
  | .write bytes nonblocking packetMode =>
    (p.stepWrite bytes nonblocking packetMode).map fun r => (r.1, .count r.2)
  | .pushPageLease lease nonblocking packetMode =>
    let r := p.stepPushPageLease lease nonblocking packetMode
    some (r.1, .count r.2)
  | .popPageLease nonblocking => (p.stepPopPageLease nonblocking).map fun r => (r.1, .page r.2)
  | .reserveGiftSlot nonblocking =>
    let r := p.stepReserveUserPageGiftSlot nonblocking
    some (r.1, .slot r.2)
  | .commitGift gift packetMode =>
    let r := p.commitUserPageGift gift packetMode
    some (r.1, .count r.2)
  | .releaseGiftSlot => some (p.releaseUserPageGiftSlot, .none)
  | .pushGift gift nonblocking packetMode =>
    let r := p.stepPushUserPageGift gift nonblocking packetMode
    some (r.1, .count r.2)
  | .popGift nonblocking => (p.stepPopUserPageGift nonblocking).map fun r => (r.1, .page r.2)
  | .setSize requested =>
    let r := p.setPipeSizeBytes requested
    some (r.1, .size r.2)
  | .incrReader => some (p.incrReader, .none)
  | .incrWriter => some (p.incrWriter, .none)
  | .decrReader => some (p.decrReader, .none)
  | .decrWriter => some (p.decrWriter, .none)

/-! ### The ledger -/

def acceptedBy : PipeCall → PipeAnswer → List Item
  | .write bytes _ packetMode, .count (.done n) => writtenItems packetMode (bytes.take n)
  | .pushPageLease lease _ packetMode, .count (.done n) =>
    if n = 0 then [] else (lease.buf packetMode).items
  | .commitGift gift packetMode, .count (.done n) =>
    if n = 0 then [] else (gift.buf packetMode).items
  | .pushGift gift _ packetMode, .count (.done n) =>
    if n = 0 then [] else (gift.buf packetMode).items
  | _, _ => []

/-- What a read or a pop took from the queue, and what it returned of it. -/
structure Taken where
  wanted : ℕ
  items : List Item
  returned : List UInt8

/-- Stream bytes are returned as they are; a packet comes last, and only its rest beyond the wanted
bytes is not returned. -/
def Taken.Lawful (t : Taken) : Prop :=
  ∃ bs tail, t.items = bs.map .byte ++ tail ∧
    (tail = [] ∧ t.returned = bs ∨
      ∃ p, tail = [.packet p] ∧ t.returned = bs ++ p.take (t.wanted - bs.length))

def leftFront (before after : List Item) : List Item := before.take (before.length - after.length)

def takenBy (before after : List Item) : PipeCall → PipeAnswer → List Taken
  | .read len _, .bytes (.done out) => [⟨len, leftFront before after, out⟩]
  | .popPageLease _, .page (.done (some buf)) =>
    [⟨userPageSize, leftFront before after, buf.content⟩]
  | .popGift _, .page (.done (some buf)) => [⟨userPageSize, leftFront before after, buf.content⟩]
  | _, _ => []

/-- A write of at most the atomic size is accepted as a whole if it is accepted at all. -/
def Atomic : PipeCall → PipeAnswer → Prop
  | .write bytes _ _, .count (.done n) => bytes.length ≤ pipeBufLimit → n = bytes.length
  | _, _ => True

/-- A pipe, its calls and answers, and the ledger. -/
structure Logged where
  pipe : PipePayload
  answered : List (PipeCall × PipeAnswer)
  accepted : List Item
  taken : List Taken

namespace Logged

def new : Logged := ⟨.new, [], [], []⟩

def step (s : Logged) (c : PipeCall) : Option (Logged × PipeAnswer) :=
  (s.pipe.step c).map fun r =>
    (⟨r.1, s.answered ++ [(c, r.2)], s.accepted ++ acceptedBy c r.2,
      s.taken ++ takenBy s.pipe.ring.items r.1.ring.items c r.2⟩, r.2)

end Logged

/-! ### One step -/

@[simp] lemma leftFront_append (taken after : List Item) :
    leftFront (taken ++ after) after = taken := by
  simp [leftFront]

/-- What a step leaves behind and what it did to the queue. -/
structure Explained (p p' : PipePayload) (c : PipeCall) (a : PipeAnswer) : Prop where
  sound : p'.ring.Sound
  items : p.ring.items ++ acceptedBy c a =
    (takenBy p.ring.items p'.ring.items c a).flatMap Taken.items ++ p'.ring.items
  lawful : ∀ t ∈ takenBy p.ring.items p'.ring.items c a, t.Lawful
  atomic : Atomic c a

section

variable {p p' : PipePayload} {c : PipeCall} {a : PipeAnswer}

lemma explained_of_quiet (hsound : p'.ring.Sound) (hitems : p'.ring.items = p.ring.items)
    (haccepted : acceptedBy c a = []) (htaken : takenBy p.ring.items p.ring.items c a = [])
    (hatomic : Atomic c a) : Explained p p' c a := by
  constructor
  · exact hsound
  · simp [haccepted, hitems, htaken]
  · simp [hitems, htaken]
  · exact hatomic

lemma explained_of_accepted (hsound : p'.ring.Sound)
    (hitems : p'.ring.items = p.ring.items ++ acceptedBy c a)
    (htaken : takenBy p.ring.items p'.ring.items c a = []) (hatomic : Atomic c a) :
    Explained p p' c a := by
  constructor
  · exact hsound
  · rw [htaken, hitems]
    simp
  · simp [htaken]
  · exact hatomic

lemma explained_of_taken {wanted : ℕ} {taken : List Item} {returned : List UInt8}
    (hsound : p'.ring.Sound) (hitems : p.ring.items = taken ++ p'.ring.items)
    (haccepted : acceptedBy c a = [])
    (htaken : takenBy p.ring.items p'.ring.items c a =
      [⟨wanted, leftFront p.ring.items p'.ring.items, returned⟩])
    (hlawful : Taken.Lawful ⟨wanted, taken, returned⟩) (hatomic : Atomic c a) :
    Explained p p' c a := by
  have hleft : leftFront p.ring.items p'.ring.items = taken := by rw [hitems, leftFront_append]
  constructor
  · exact hsound
  · rw [haccepted, htaken, hleft]
    simpa using hitems
  · simpa [htaken, hleft] using hlawful
  · exact hatomic

end

namespace PipePayload

variable {p : PipePayload} {r : PipeRing}

lemma lawful_nil (wanted : ℕ) : Taken.Lawful ⟨wanted, [], []⟩ := ⟨[], [], by simp⟩

section

variable (h : p.ring.Sound) (len : ℕ) (nonblocking : Bool)
include h

lemma explained_onEmpty :
    Explained p p (.read len nonblocking) (.bytes (p.onEmpty [] nonblocking)) := by
  unfold onEmpty
  split_ifs
  · exact explained_of_taken h rfl rfl rfl (lawful_nil len) trivial
  all_goals exact explained_of_quiet h rfl rfl rfl trivial

lemma explained_read :
    ∃ p' o, p.stepRead len nonblocking = some (p', o) ∧
      Explained p p' (.read len nonblocking) (.bytes o) := by
  unfold stepRead
  by_cases hlen : len = 0
  · refine ⟨p, _, if_pos hlen, ?_⟩
    exact explained_of_taken h rfl rfl rfl (lawful_nil len) trivial
  by_cases hempty : p.ring.isEmpty = true
  · refine ⟨p, _, by rw [if_neg hlen, if_pos hempty], explained_onEmpty h len nonblocking⟩
  obtain ⟨ring, hdrain, hitems, hsound, -⟩ := drainToSlice_spec h len
  obtain ⟨bs, tail, htaken, hlawful⟩ := readItems_taken len p.ring.items
  rw [if_neg hlen, if_neg hempty, hdrain]
  refine ⟨{ p with ring }, _, rfl, ?_⟩
  exact explained_of_taken hsound (hitems ▸ htaken) rfl rfl ⟨bs, tail, rfl, hlawful⟩ trivial

lemma explained_peek :
    ∃ p' o, p.stepPeek len nonblocking = some (p', o) ∧
      Explained p p' (.peek len nonblocking) (.bytes o) := by
  unfold stepPeek
  rw [copyToSlice_spec h len]
  split_ifs <;> exact ⟨p, _, rfl, explained_of_quiet h rfl rfl rfl trivial⟩

end

lemma min_fillCapacity_of_atomic {bytes : List UInt8} {packetMode : Bool}
    (hlen : bytes.length ≤ pipeBufLimit) (h : r.canWriteAtomic bytes.length packetMode = true) :
    min bytes.length (r.fillCapacity packetMode) = bytes.length := by
  cases packetMode with
  | true =>
    simp only [canWriteAtomic, if_true, Bool.and_eq_true, decide_eq_true_eq,
      Bool.not_eq_true', isFull, decide_eq_false_iff_not] at h
    have hfree : 1 ≤ r.freeSlots := by
      simp only [freeSlots]
      omega
    have := Nat.mul_le_mul_right pipeBufLimit hfree
    simp only [fillCapacity, if_true]
    omega
  | false =>
    simp only [canWriteAtomic, Bool.false_eq_true, if_false, decide_eq_true_eq] at h
    simp only [fillCapacity, Bool.false_eq_true, if_false]
    omega

lemma explained_onFull {p' : PipePayload} (h : p'.ring.Sound)
    (hitems : p'.ring.items = p.ring.items) (bytes : List UInt8) (nonblocking packetMode : Bool) :
    Explained p p' (.write bytes nonblocking packetMode) (.count (onFull nonblocking)) := by
  unfold onFull
  split_ifs <;> exact explained_of_quiet h hitems rfl rfl trivial

lemma explained_write (h : p.ring.Sound) (bytes : List UInt8) (nonblocking packetMode : Bool) :
    ∃ p' o, p.stepWrite bytes nonblocking packetMode = some (p', o) ∧
      Explained p p' (.write bytes nonblocking packetMode) (.count o) := by
  unfold stepWrite
  by_cases hnil : bytes = []
  · refine ⟨p, _, if_pos hnil, explained_of_quiet h rfl ?_ rfl ?_⟩
    · cases packetMode <;> simp [acceptedBy, writtenItems]
    · simp [Atomic, hnil]
  rw [if_neg hnil]
  by_cases hreaders : p.readerCount = 0
  · exact ⟨p, _, if_pos hreaders, explained_of_quiet h rfl rfl rfl trivial⟩
  rw [if_neg hreaders]
  split_ifs with hatomic hroom
  · exact ⟨p, _, rfl, explained_onFull h rfl bytes nonblocking packetMode⟩
  · obtain ⟨ring, hfill, hitems, hsound, -⟩ := fillFromSlice_spec h bytes packetMode
    simp only [hfill, Option.bind_eq_bind, Option.bind_some]
    split_ifs with hcopied
    · refine ⟨_, _, rfl, explained_of_accepted hsound hitems rfl ?_⟩
      intro hlen
      refine min_fillCapacity_of_atomic hlen ?_
      simpa [hlen] using hatomic
    · refine ⟨_, _, rfl, explained_onFull hsound ?_ bytes nonblocking packetMode⟩
      have hzero : min bytes.length (p.ring.fillCapacity packetMode) = 0 := by omega
      rw [hzero] at hitems
      cases packetMode <;> simpa [writtenItems] using hitems
  · exact ⟨p, _, rfl, explained_onFull h rfl bytes nonblocking packetMode⟩

lemma valid_giftBuf (gift : UserPageGift) (packetMode : Bool) (h : gift.len ≠ 0) :
    (gift.buf packetMode).Valid :=
  ⟨Nat.pos_of_ne_zero h, by simpa [UserPageGift.buf] using gift.inPage, fun _ => rfl⟩

lemma freeSlots_pos (h : p.ring.isFull = false) : 0 < p.ring.freeSlots := by
  simp only [isFull, decide_eq_false_iff_not] at h
  simp only [freeSlots]
  omega

section

variable (h : p.ring.Sound)
include h

lemma explained_pushPageLease (lease : LeasePart) (nonblocking packetMode : Bool) :
    Explained p (p.stepPushPageLease lease nonblocking packetMode).1
      (.pushPageLease lease nonblocking packetMode)
      (.count (p.stepPushPageLease lease nonblocking packetMode).2) := by
  unfold stepPushPageLease
  split_ifs with hlen hreaders hfull
  any_goals cases nonblocking <;> exact explained_of_quiet h rfl rfl rfl trivial
  · obtain ⟨hsound, hitems⟩ := h.pushBuf (b := lease.buf packetMode)
      ⟨Nat.pos_of_ne_zero hlen, lease.inPage, fun _ => rfl⟩ (freeSlots_pos (by simpa using hfull))
    exact explained_of_accepted hsound (by simpa [acceptedBy, hlen] using hitems) rfl trivial

lemma explained_pushGift (gift : UserPageGift) (nonblocking packetMode : Bool) :
    Explained p (p.stepPushUserPageGift gift nonblocking packetMode).1
      (.pushGift gift nonblocking packetMode)
      (.count (p.stepPushUserPageGift gift nonblocking packetMode).2) := by
  unfold stepPushUserPageGift
  split_ifs with hlen hreaders hfull
  any_goals cases nonblocking <;> exact explained_of_quiet h rfl rfl rfl trivial
  · obtain ⟨hsound, hitems⟩ := h.pushBuf (valid_giftBuf gift packetMode hlen)
      (freeSlots_pos (by simpa using hfull))
    exact explained_of_accepted hsound (by simpa [acceptedBy, hlen] using hitems) rfl trivial

lemma sound_withReserved {n : ℕ} (hn : p.ring.bufs.length + n ≤ p.ring.maxUsage) :
    PipeRing.Sound { p.ring with reservedGiftSlots := n } :=
  ⟨h.bytes, h.bufs, hn, h.size⟩

lemma explained_reserve (nonblocking : Bool) :
    Explained p (p.stepReserveUserPageGiftSlot nonblocking).1 (.reserveGiftSlot nonblocking)
      (.slot (p.stepReserveUserPageGiftSlot nonblocking).2) := by
  unfold stepReserveUserPageGiftSlot
  split_ifs with hreaders hfull
  all_goals try exact explained_of_quiet h rfl rfl rfl trivial
  · have hfree := freeSlots_pos (p := p) (by simpa using hfull)
    simp only [freeSlots, occupiedSlots] at hfree
    exact explained_of_quiet (sound_withReserved h (by omega)) rfl rfl rfl trivial

lemma sound_release : p.releaseUserPageGiftSlot.ring.Sound := by
  have := h.slots
  exact sound_withReserved h (by omega)

lemma explained_commit (gift : UserPageGift) (packetMode : Bool) :
    Explained p (p.commitUserPageGift gift packetMode).1 (.commitGift gift packetMode)
      (.count (p.commitUserPageGift gift packetMode).2) := by
  unfold commitUserPageGift
  split_ifs with hlen hreserved
  · exact explained_of_quiet (sound_release h) rfl rfl rfl trivial
  · exact explained_of_quiet h rfl rfl rfl trivial
  have hslots := h.slots
  have hring : PipeRing.Sound
      { p.ring with reservedGiftSlots := p.ring.reservedGiftSlots - 1 } :=
    sound_withReserved h (by omega)
  obtain ⟨hsound, hitems⟩ := hring.pushBuf (valid_giftBuf gift packetMode hlen)
    (by simp only [freeSlots, occupiedSlots]; omega)
  refine explained_of_accepted hsound ?_ rfl trivial
  simp only [acceptedBy, hlen, if_false]
  exact hitems

end

lemma popWholePage_spec (h : r.Sound) (wanted : PipeStorage → Bool) :
    r.popWholePage wanted = some none ∨
      ∃ buf r', r.popWholePage wanted = some (some (buf, r')) ∧ r'.Sound ∧
        r.items = buf.items ++ r'.items ∧ Taken.Lawful ⟨userPageSize, buf.items, buf.content⟩ := by
  unfold popWholePage
  rcases hbufs : r.bufs with _ | ⟨front, rest⟩
  · exact .inl rfl
  simp only
  split_ifs with hwanted
  · right
    have hvalid : front.Valid := h.bufs front (by simp [hbufs])
    have hbytes : r.bytes = front.len + totalLen rest := by simpa [hbufs] using h.bytes
    have hlen : front.len = userPageSize := by
      simp only [Bool.and_eq_true, beq_iff_eq] at hwanted
      exact hwanted.2
    rw [checkedSub_of_le (by omega)]
    refine ⟨front, _, rfl, ⟨?_, ?_, ?_, h.size⟩, ?_, ?_⟩
    · simp only
      omega
    · exact fun b hb => h.bufs b (by simp [hbufs, hb])
    · have := h.slots
      simp only [hbufs, length_cons] at this
      simp only
      omega
    · simp [items, hbufs]
    by_cases hpacket : front.isPacket = true
    · refine ⟨[], [.packet front.content], by simp [PipeBuf.items, hpacket], .inr ⟨_, rfl, ?_⟩⟩
      rw [nil_append, length_nil, Nat.sub_zero, ← hlen,
        take_of_length_le hvalid.length_content.le]
    · exact ⟨front.content, [], by simp [PipeBuf.items, hpacket], .inl ⟨rfl, rfl⟩⟩
  · exact .inl rfl

section

variable (h : p.ring.Sound)

include h

lemma explained_popPageLease (nonblocking : Bool) :
    ∃ p' o, p.stepPopPageLease nonblocking = some (p', o) ∧
      Explained p p' (.popPageLease nonblocking) (.page o) := by
  unfold stepPopPageLease popFrontLease
  rcases popWholePage_spec h isLease with hnone | ⟨buf, r, hpop, hsound, hitems, hlawful⟩
  · rw [hnone]
    refine ⟨p, _, rfl, ?_⟩
    unfold onEmpty
    split_ifs <;> exact explained_of_quiet h rfl rfl rfl trivial
  · rw [hpop]
    exact ⟨{ p with ring := r }, _, rfl, explained_of_taken hsound hitems rfl rfl hlawful trivial⟩

lemma explained_popGift (nonblocking : Bool) :
    ∃ p' o, p.stepPopUserPageGift nonblocking = some (p', o) ∧
      Explained p p' (.popGift nonblocking) (.page o) := by
  unfold stepPopUserPageGift popFrontUserPageGift
  rcases popWholePage_spec h isGift with hnone | ⟨buf, r, hpop, hsound, hitems, hlawful⟩
  · rw [hnone]
    by_cases hempty : p.ring.isEmpty = true
    · refine ⟨p, _, by simp [hempty]; rfl, ?_⟩
      unfold onEmpty
      split_ifs <;> exact explained_of_quiet h rfl rfl rfl trivial
    · exact ⟨p, .done none, by simp [hempty], explained_of_quiet h rfl rfl rfl trivial⟩
  · rw [hpop]
    exact ⟨{ p with ring := r }, _, rfl, explained_of_taken hsound hitems rfl rfl hlawful trivial⟩

lemma explained_setSize (requested : ℕ) :
    Explained p (p.setPipeSizeBytes requested).1 (.setSize requested)
      (.size (p.setPipeSizeBytes requested).2) := by
  unfold setPipeSizeBytes PipeRing.setPipeSizeBytes
  rcases roundPipeSize requested with _ | rounded
  · exact explained_of_quiet h rfl rfl rfl trivial
  simp only
  split_ifs with hmax hbusy
  all_goals try exact explained_of_quiet h rfl rfl rfl trivial
  · have hle := Nat.div_mul_le_self rounded userPageSize
    refine explained_of_quiet ⟨h.bytes, h.bufs, ?_, ?_⟩ rfl rfl rfl trivial
    · simp only [occupiedSlots] at hbusy
      simp only
      omega
    · simp only
      omega

/-- **Every step** goes through and does to the queue what its answer says. -/
lemma explained_step (c : PipeCall) : ∃ p' a, p.step c = some (p', a) ∧ Explained p p' c a := by
  cases c with
  | read len nonblocking =>
    obtain ⟨p', o, ho, hexp⟩ := explained_read h len nonblocking
    exact ⟨p', _, by simp [step, ho], hexp⟩
  | peek len nonblocking =>
    obtain ⟨p', o, ho, hexp⟩ := explained_peek h len nonblocking
    exact ⟨p', _, by simp [step, ho], hexp⟩
  | write bytes nonblocking packetMode =>
    obtain ⟨p', o, ho, hexp⟩ := explained_write h bytes nonblocking packetMode
    exact ⟨p', _, by simp [step, ho], hexp⟩
  | pushPageLease lease nonblocking packetMode =>
    exact ⟨_, _, rfl, explained_pushPageLease h lease nonblocking packetMode⟩
  | popPageLease nonblocking =>
    obtain ⟨p', o, ho, hexp⟩ := explained_popPageLease h nonblocking
    exact ⟨p', _, by simp [step, ho], hexp⟩
  | reserveGiftSlot nonblocking => exact ⟨_, _, rfl, explained_reserve h nonblocking⟩
  | commitGift gift packetMode => exact ⟨_, _, rfl, explained_commit h gift packetMode⟩
  | releaseGiftSlot =>
    exact ⟨_, _, rfl, explained_of_quiet (sound_release h) rfl rfl rfl trivial⟩
  | pushGift gift nonblocking packetMode =>
    exact ⟨_, _, rfl, explained_pushGift h gift nonblocking packetMode⟩
  | popGift nonblocking =>
    obtain ⟨p', o, ho, hexp⟩ := explained_popGift h nonblocking
    exact ⟨p', _, by simp [step, ho], hexp⟩
  | setSize requested => exact ⟨_, _, rfl, explained_setSize h requested⟩
  | incrReader | incrWriter | decrReader | decrWriter =>
    exact ⟨_, _, rfl, explained_of_quiet h rfl rfl rfl trivial⟩

end

end PipePayload

/-! ### Whole runs -/

namespace Logged

structure Balanced (s : Logged) : Prop where
  sound : s.pipe.ring.Sound
  items : s.accepted = s.taken.flatMap Taken.items ++ s.pipe.ring.items
  lawful : ∀ t ∈ s.taken, t.Lawful
  atomic : ∀ e ∈ s.answered, Atomic e.1 e.2

lemma balanced_new : Balanced new := ⟨sound_new, rfl, by simp [new], by simp [new]⟩

lemma Balanced.step {s : Logged} (h : Balanced s) (c : PipeCall) :
    ∃ s' a, s.step c = some (s', a) ∧ Balanced s' := by
  obtain ⟨p', a, hp', hexp⟩ := PipePayload.explained_step h.sound c
  refine ⟨⟨p', s.answered ++ [(c, a)], s.accepted ++ acceptedBy c a,
    s.taken ++ takenBy s.pipe.ring.items p'.ring.items c a⟩, a, by simp [Logged.step, hp'],
    hexp.sound, ?_, ?_, ?_⟩
  · simp only [flatMap_append, append_assoc]
    rw [← hexp.items, h.items, append_assoc]
  · intro t ht
    rcases mem_append.mp ht with ht | ht
    · exact h.lawful t ht
    · exact hexp.lawful t ht
  intro e he
  rcases mem_append.mp he with he | he
  · exact h.atomic e he
  rw [mem_singleton.mp he]
  exact hexp.atomic

end Logged

end TxKernel.Pipe
