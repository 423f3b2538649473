import TxKernel.Pipe.Stream

/-!
Transfers between two pipes. When the destination has no free slot, a splice copies into the room
behind its last buffer, and this copy can run into a packet that follows the stream bytes.
-/

namespace TxKernel.Pipe

open List PipeBuf Option PipeRing

def Item.bytes : Item → List UInt8
  | .byte b => [b]
  | .packet p => p

def flat (items : List Item) : List UInt8 := items.flatMap Item.bytes

@[simp] lemma flat_nil : flat [] = [] := rfl

@[simp] lemma flat_append (a b : List Item) : flat (a ++ b) = flat a ++ flat b := by simp [flat]

@[simp] lemma flat_packet (p : List UInt8) : flat [.packet p] = p := by simp [flat, Item.bytes]

@[simp] lemma flat_bytes (bs : List UInt8) : flat (bs.map .byte) = bs := by
  induction bs with
  | nil => rfl
  | cons b bs ih => simpa [flat, Item.bytes] using ih

/-- `n` bytes go from the front of one queue to the end of another: stream bytes, and behind them at
most one packet, of which the rest is lost. -/
def Moves (n : ℕ) (s s' d d' : List Item) : Prop :=
  ∃ bs tail sent last, s = bs.map .byte ++ tail ++ s' ∧ d' = d ++ sent ++ last ∧ flat sent = bs ∧
    n = bs.length + (flat last).length ∧
    (tail = [] ∧ last = [] ∨ ∃ p k, tail = [.packet p] ∧ last = [.packet (p.take k)])

def StreamMoves (packetMode : Bool) (n : ℕ) (s s' d d' : List Item) : Prop :=
  ∃ bs sent, s = bs.map .byte ++ s' ∧ d' = d ++ sent ∧ flat sent = bs ∧ n = bs.length ∧
    (packetMode = false → sent = bs.map .byte)

/-- A packet left the source, but only stream bytes arrived. -/
def Spoils (s s' d d' : List Item) : Prop :=
  ∃ (taken : List Item) (bs p : List UInt8), s = taken ++ s' ∧ .packet p ∈ taken ∧
    d' = d ++ bs.map .byte

variable {n m : ℕ} {s s' s'' d d' d'' : List Item} {packetMode : Bool}

lemma Moves.flat_eq (h : Moves n s s' d d') : flat d' = flat d ++ (flat s).take n := by
  obtain ⟨bs, tail, sent, last, rfl, rfl, hsent, rfl, ⟨rfl, rfl⟩ | ⟨p, k, rfl, rfl⟩⟩ := h
  · simp [hsent]
  have hp : flat (.packet p :: s') = p ++ flat s' := by simp [flat, Item.bytes]
  have hlen : (p.take k).length ≤ p.length := by simp
  simp only [flat_append, flat_bytes, flat_packet, hsent, append_assoc, singleton_append,
    hp, take_length_add_append, take_append_of_le_length hlen]
  congr 2
  rw [take_eq_take_iff]
  simp

lemma moves_zero (s d : List Item) : Moves 0 s s d d :=
  ⟨[], [], [], [], by simp, by simp, rfl, rfl, .inl ⟨rfl, rfl⟩⟩

lemma StreamMoves.moves (h : StreamMoves packetMode n s s' d d') (h' : Moves m s' s'' d' d'') :
    Moves (n + m) s s'' d d'' := by
  obtain ⟨bs, sent, rfl, rfl, hsent, rfl, -⟩ := h
  obtain ⟨bs', tail, sent', last, rfl, rfl, hsent', rfl, htail⟩ := h'
  refine ⟨bs ++ bs', tail, sent ++ sent', last, by simp, by simp, by simp [hsent, hsent'], ?_,
    htail⟩
  rw [length_append]
  omega

lemma streamMoves_bytes {bs : List UInt8} (hs : s = bs.map .byte ++ s')
    (hd : d' = d ++ bs.map .byte) : StreamMoves packetMode bs.length s s' d d' :=
  ⟨bs, _, hs, hd, flat_bytes bs, rfl, fun _ => rfl⟩

lemma StreamMoves.spoils (h : StreamMoves false n s s' d d') (h' : Spoils s' s'' d' d'') :
    Spoils s s'' d d'' := by
  obtain ⟨bs, sent, rfl, rfl, -, -, hsent⟩ := h
  obtain ⟨taken, bs', p, rfl, hp, rfl⟩ := h'
  exact ⟨bs.map .byte ++ taken, bs ++ bs', p, by simp, by simp [hp], by simp [hsent rfl]⟩

lemma Spoils.not_moves (h : Spoils s s' d d') : ¬ Moves n s s' d d' := by
  obtain ⟨taken, bs, p, rfl, hp, rfl⟩ := h
  rintro ⟨bs', tail, sent, last, hs, hd, -, -, ⟨rfl, rfl⟩ | ⟨p', k, rfl, rfl⟩⟩
  · rw [append_nil, append_left_inj] at hs
    rw [hs] at hp
    simp at hp
  · rw [append_assoc, append_right_inj] at hd
    have hmem : Item.packet (p'.take k) ∈ bs.map Item.byte := by simp [hd]
    simp at hmem

namespace PipeRing

variable {r dst : PipeRing} {front : PipeBuf} {rest : List PipeBuf} {remaining scratch : ℕ}

lemma isFull_iff (r : PipeRing) : r.isFull = true ↔ r.freeSlots = 0 := by
  simp [isFull, freeSlots, Nat.sub_eq_zero_iff_le]

def leadingStream (bufs : List PipeBuf) : List PipeBuf := bufs.takeWhile fun b => !b.isPacket

/-- The moved buffers use up the free slots before the first packet, and the room behind the last of
them is more than the stream bytes left in front of it. -/
def Crosses (r dst : PipeRing) (len : ℕ) (packetMode : Bool) : Prop :=
  packetMode = false ∧ dst.freeSlots < (leadingStream r.bufs).length ∧
    (leadingStream r.bufs).length < r.bufs.length ∧
    totalLen ((leadingStream r.bufs).drop dst.freeSlots) <
      min (len - totalLen ((leadingStream r.bufs).take dst.freeSlots))
        (tailMerge { dst with bufs := dst.bufs ++ (leadingStream r.bufs).take dst.freeSlots })

instance (r dst : PipeRing) (len : ℕ) (packetMode : Bool) :
    Decidable (Crosses r dst len packetMode) :=
  inferInstanceAs (Decidable (_ ∧ _))

lemma leadingStream_packet (h : front.isPacket = true) (rest : List PipeBuf) :
    leadingStream (front :: rest) = [] := by simp [leadingStream, h]

lemma leadingStream_stream (h : front.isPacket = false) (rest : List PipeBuf) :
    leadingStream (front :: rest) = front :: leadingStream rest := by simp [leadingStream, h]

lemma not_crosses_packet (hbufs : r.bufs = front :: rest) (h : front.isPacket = true) :
    ¬ Crosses r dst remaining packetMode := by
  rintro ⟨-, hfree, -⟩
  simp [hbufs, leadingStream_packet h] at hfree

lemma not_crosses_of_le (h : r.bufs = front :: rest) (hstream : front.isPacket = false)
    (hfree : 0 < dst.freeSlots) (hle : remaining ≤ front.len) :
    ¬ Crosses r dst remaining packetMode := by
  rintro ⟨-, -, -, hroom⟩
  obtain ⟨f, hf⟩ := Nat.exists_eq_add_of_lt hfree
  simp only [h, leadingStream_stream hstream, hf, Nat.zero_add, take_succ_cons,
    totalLen_cons] at hroom
  omega

lemma not_crosses_zero : ¬ Crosses r dst 0 packetMode := by
  rintro ⟨-, -, -, hroom⟩
  simp at hroom

lemma not_crosses_full (hfree : dst.freeSlots = 0)
    (hle : min remaining dst.tailMerge ≤ totalLen (leadingStream r.bufs)) :
    ¬ Crosses r dst remaining packetMode := by
  rintro ⟨-, -, -, hroom⟩
  simp only [hfree, drop_zero, take_zero, totalLen_nil, append_nil] at hroom
  have hroom' : totalLen (leadingStream r.bufs) < min remaining dst.tailMerge := hroom
  omega

lemma crosses_full (hfree : dst.freeSlots = 0) (h0 : leadingStream r.bufs ≠ [])
    (hpacket : (leadingStream r.bufs).length < r.bufs.length)
    (hlt : totalLen (leadingStream r.bufs) < min remaining dst.tailMerge) :
    Crosses r dst remaining false := by
  refine ⟨rfl, ?_, hpacket, ?_⟩
  · rw [hfree]
    exact length_pos_iff.mpr h0
  · simp only [hfree, drop_zero, take_zero, totalLen_nil, append_nil]
    exact hlt

/-! ### Moving whole buffers -/

lemma crosses_pushBuf (hbufs : r.bufs = front :: rest) (hstream : front.isPacket = false)
    (hfree : 0 < dst.freeSlots) (bytes : ℕ) :
    Crosses { r with bufs := rest, bytes } (dst.pushBuf front) (remaining - front.len) false ↔
      Crosses r dst remaining false := by
  obtain ⟨f, hf⟩ := Nat.exists_eq_add_of_lt hfree
  rw [Nat.zero_add] at hf
  have hf' : (dst.pushBuf front).freeSlots = f := by
    simp only [freeSlots, occupiedSlots, pushBuf, length_append, length_singleton] at hf ⊢
    omega
  simp only [Crosses, hbufs, leadingStream_stream hstream, hf', hf, take_succ_cons,
    drop_succ_cons, length_cons, totalLen_cons, Nat.sub_sub, Nat.add_lt_add_iff_right]
  simp only [tailMerge, pushBuf, append_assoc, singleton_append]

lemma pushTransferredBuf_spec (hd : Sound dst) (hb : front.Valid) (hfree : 0 < dst.freeSlots)
    (packetMode : Bool) :
    Sound (dst.pushTransferredBuf front packetMode) ∧
      (dst.pushTransferredBuf front packetMode).items = dst.items ++
        (if packetMode || front.isPacket then [.packet front.content]
          else front.content.map .byte) := by
  cases packetMode with
  | false =>
    obtain ⟨hsound, hitems⟩ := hd.pushBuf hb hfree
    exact ⟨hsound, by simpa [pushTransferredBuf, PipeBuf.items] using hitems⟩
  | true =>
    have hb' : PipeBuf.Valid { front with flags := ⟨false, true⟩ } :=
      ⟨hb.nonempty, hb.inPage, fun _ => rfl⟩
    obtain ⟨hsound, hitems⟩ := hd.pushBuf hb' hfree
    exact ⟨hsound,
      by simpa [pushTransferredBuf, PipeBuf.items, PipeBuf.isPacket, PipeBuf.content] using hitems⟩

lemma Sound.valid_front (h : Sound r) (hbufs : r.bufs = front :: rest) : front.Valid :=
  h.bufs front (by simp [hbufs])

lemma Sound.withoutFront (h : Sound r) (hbufs : r.bufs = front :: rest) :
    Sound { r with bufs := rest, bytes := r.bytes - front.len } := by
  have hbytes := h.bytes
  have hslots := h.slots
  rw [hbufs, totalLen_cons] at hbytes
  rw [hbufs, length_cons] at hslots
  refine ⟨by simp only; omega, fun b hb => h.bufs b (by simp [hbufs, hb]), by simp only; omega,
    h.size⟩

structure Turn (r dst r' dst' : PipeRing) (packetMode : Bool) (remaining n : ℕ) (goOn : Bool) :
    Prop where
  soundSrc : Sound r'
  soundDst : Sound dst'
  pos : goOn = true → 0 < n
  last : goOn = false → ¬ Crosses r dst remaining packetMode ∧
    Moves n r.items r'.items dst.items dst'.items ∧ (dst.freeSlots = 0 → r' = r ∧ dst' = dst)
  full : goOn = true → dst.freeSlots = 0 → packetMode = false ∧ dst'.freeSlots = 0
  more : goOn = true →
    StreamMoves packetMode n r.items r'.items dst.items dst'.items ∧
        (Crosses r' dst' (remaining - n) packetMode ↔ Crosses r dst remaining packetMode) ∨
      Crosses r dst remaining packetMode ∧ dst.freeSlots = 0 ∧
        Spoils r.items r'.items dst.items dst'.items

def Turns (scratch : ℕ) (packetMode : Bool) (remaining : ℕ) (r dst : PipeRing) : Prop :=
  ∃ goOn n r' d', drainTurn scratch packetMode remaining r dst = some (goOn, n, r', d') ∧
    Turn r dst r' d' packetMode remaining n goOn

lemma turn_stop (hr : Sound r) (hd : Sound dst) (h : ¬ Crosses r dst remaining packetMode) :
    Turn r dst r dst packetMode remaining 0 false :=
  ⟨hr, hd, by simp, fun _ => ⟨h, moves_zero _ _, fun _ => ⟨rfl, rfl⟩⟩, by simp, by simp⟩

lemma not_crosses_of_not_accept (hbufs : r.bufs = front :: rest)
    (h : dst.canAcceptTransfer (packetMode || front.isPacket) = false) :
    ¬ Crosses r dst remaining packetMode := by
  cases hp : front.isPacket with
  | true => exact not_crosses_packet hbufs hp
  | false =>
    cases packetMode with
    | true => exact fun hc => by simpa using hc.1
    | false =>
      rw [hp] at h
      have hroom : ¬ 0 < dst.availableWriteCapacity := of_decide_eq_false h
      obtain ⟨htail, hslots⟩ := Nat.add_eq_zero_iff.mp (Nat.eq_zero_of_not_pos hroom)
      have hfree := (Nat.mul_eq_zero.mp hslots).resolve_right (by decide)
      refine not_crosses_full hfree ?_
      omega

lemma isFull_of_free (h : 0 < r.freeSlots) : r.isFull = false := by
  rw [← Bool.not_eq_true, isFull_iff]
  omega

lemma canAcceptTransfer_of_free (h : 0 < r.freeSlots) (packet : Bool) :
    r.canAcceptTransfer packet = true := by
  have hpos : 0 < r.freeSlots * userPageSize := Nat.mul_pos h (by decide)
  cases packet with
  | true => simp [canAcceptTransfer, isFull_of_free h]
  | false =>
    have hroom : 0 < r.availableWriteCapacity := Nat.add_pos_right _ hpos
    simp [canAcceptTransfer, hroom]

lemma stream_of_canAcceptTransfer (h : r.freeSlots = 0) {packet : Bool}
    (haccept : r.canAcceptTransfer packet = true) : packet = false ∧ 0 < r.tailMerge := by
  cases packet with
  | true => simp [canAcceptTransfer, (isFull_iff r).mpr h] at haccept
  | false => exact ⟨rfl, by simpa [canAcceptTransfer, availableWriteCapacity, h] using haccept⟩

lemma le_transferCapacity (h : 0 < r.freeSlots) (packet : Bool) :
    userPageSize ≤ r.transferCapacity packet ∧ userPageSize ≤ r.fillCapacity packet := by
  have hslot : userPageSize ≤ r.freeSlots * userPageSize := Nat.le_mul_of_pos_left _ h
  have hroom : userPageSize ≤ r.availableWriteCapacity := le_trans hslot (Nat.le_add_left _ _)
  cases packet with
  | true => exact ⟨by simp [transferCapacity, isFull_of_free h, pipeBufLimit, userPageSize], hslot⟩
  | false => exact ⟨hroom, hroom⟩

/-- The items that the first bytes of a buffer become. -/
def duplicated (b : PipeBuf) (chunk : ℕ) (packetMode : Bool) : List Item :=
  if packetMode || b.isPacket then [.packet (b.content.take chunk)]
  else (b.content.take chunk).map .byte

section

variable {b : PipeBuf} {chunk : ℕ} (hb : b.Valid) (hle : chunk ≤ b.len)

include hb hle

lemma length_take_content : (b.content.take chunk).length = chunk := by
  rw [length_take, hb.length_content, Nat.min_eq_left hle]

lemma moves_packet (hp : b.isPacket = true) (behind d : List Item) :
    Moves chunk (b.items ++ behind) behind d (d ++ duplicated b chunk packetMode) := by
  refine ⟨[], b.items, [], [.packet (b.content.take chunk)], by simp, ?_, rfl, ?_,
    .inr ⟨b.content, chunk, ?_, rfl⟩⟩
  · simp [duplicated, hp]
  · simp [hb.length_content, hle]
  · simp [PipeBuf.items, hp]

lemma streamMoves_front (hp : b.isPacket = false) (behind d : List Item) :
    StreamMoves packetMode chunk (b.items ++ behind)
      ((b.content.drop chunk).map .byte ++ behind) d (d ++ duplicated b chunk packetMode) := by
  refine ⟨b.content.take chunk, _, ?_, rfl, ?_, (length_take_content hb hle).symm, ?_⟩
  · simp [PipeBuf.items, hp, ← append_assoc]
  · cases packetMode
    · exact (congrArg flat (by simp [duplicated, hp])).trans (flat_bytes _)
    · simp [duplicated]
  · rintro rfl
    simp [duplicated, hp]

lemma fillFromSlice_free (hd : Sound dst) (hfree : 0 < dst.freeSlots) (hpos : 0 < chunk)
    (packetMode : Bool) :
    ∃ d', dst.fillFromSlice (b.content.take chunk) (packetMode || b.isPacket) = some (chunk, d') ∧
      Sound d' ∧ d'.items = dst.items ++ duplicated b chunk packetMode := by
  have hpage := hb.inPage
  have hlen := length_take_content hb hle
  have hne : b.content.take chunk ≠ [] := by
    rw [← length_pos_iff]
    omega
  obtain ⟨d', hfill, hitems, hsound, -⟩ :=
    fillFromSlice_spec hd (b.content.take chunk) (packetMode || b.isPacket)
  have hcap := (le_transferCapacity hfree (packetMode || b.isPacket)).2
  rw [hlen, Nat.min_eq_left (by omega)] at hfill hitems
  rw [take_of_length_le hlen.le] at hitems
  have hlimit : (b.content.take chunk).length ≤ pipeBufLimit := by
    simp only [userPageSize, pipeBufLimit] at hpage ⊢
    omega
  refine ⟨d', hfill, hsound, ?_⟩
  rw [hitems, duplicated, writtenItems, packetsOf_of_ne_nil hne, take_of_length_le hlimit,
    drop_of_length_le hlimit, packetsOf_nil]

end

lemma turn_front {r' d' : PipeRing} {k : ℕ} (hb : front.Valid) (hbufs : r.bufs = front :: rest)
    (hfree : 0 < dst.freeSlots) (hpos : 0 < k) (hle : k ≤ front.len) (hr' : Sound r')
    (hd' : Sound d') (hditems : d'.items = dst.items ++ duplicated front k packetMode)
    (hleft : r'.items = (if front.isPacket then [] else (front.content.drop k).map .byte) ++
      rest.flatMap PipeBuf.items)
    (hcrosses : front.isPacket = false →
      (Crosses r' d' (remaining - k) packetMode ↔ Crosses r dst remaining packetMode)) :
    Turn r dst r' d' packetMode remaining k (!front.isPacket) := by
  have hitems : r.items = front.items ++ rest.flatMap PipeBuf.items := by simp [items, hbufs]
  refine ⟨hr', hd', fun _ => hpos, fun hp => ?_, fun _ h => by omega, fun hp => ?_⟩
  · have hp' : front.isPacket = true := by simpa using hp
    refine ⟨not_crosses_packet hbufs hp', ?_, fun h => by omega⟩
    simpa [hitems, hleft, hditems, hp'] using moves_packet hb hle hp' _ _
  · have hp' : front.isPacket = false := by simpa using hp
    refine .inl ⟨?_, hcrosses hp'⟩
    simpa [hitems, hleft, hditems, hp'] using streamMoves_front hb hle hp' _ _

lemma drainTurn_descriptor (hr : Sound r) (hd : Sound dst) (hbufs : r.bufs = front :: rest)
    (hpos : 0 < remaining) (hfree : 0 < dst.freeSlots) (hle : front.len ≤ remaining) :
    Turns scratch packetMode remaining r dst := by
  have hfront := hr.valid_front hbufs
  have hfull := isFull_of_free hfree
  have haccept := canAcceptTransfer_of_free hfree (packetMode || front.isPacket)
  have hpage : ¬ pipeBufLimit < front.len := by
    have := hfront.inPage
    simp only [userPageSize, pipeBufLimit] at this ⊢
    omega
  have hbytes : front.len ≤ r.bytes := by
    rw [hr.bytes, hbufs, totalLen_cons]
    omega
  have hdescriptor : r.drainDescriptorToRing dst remaining packetMode =
      some (some (front.len, { r with bufs := rest, bytes := r.bytes - front.len },
        dst.pushTransferredBuf front packetMode)) := by
    simp [drainDescriptorToRing, hbufs, hfull, hpage, Nat.min_eq_left hle, checkedSub_of_le hbytes,
      Nat.pos_iff_ne_zero.mp hpos]
  obtain ⟨hsound, hitems⟩ := pushTransferredBuf_spec hd hfront hfree packetMode
  have hlen := hfront.length_content
  refine ⟨_, _, _, _, by simp [drainTurn, hbufs, haccept, hdescriptor, Nat.pos_iff_ne_zero.mp hpos],
    turn_front hfront hbufs hfree hfront.nonempty le_rfl (hr.withoutFront hbufs) hsound ?_ ?_ ?_⟩
  · rw [hitems, duplicated, ← hlen, take_length]
  · simp [items, ← hlen]
  intro hp
  cases packetMode with
  | true => exact ⟨fun h => by simpa using h.1, fun h => by simpa using h.1⟩
  | false => exact crosses_pushBuf hbufs hp hfree _

lemma readItems_front (hr : Sound r) (hbufs : r.bufs = front :: rest) (hpos : 0 < remaining)
    (hlt : remaining < front.len) :
    (readItems remaining r.items).1 = front.content.take remaining ∧
      (readItems remaining r.items).2 =
        (if front.isPacket then [] else (front.content.drop remaining).map .byte) ++
          rest.flatMap PipeBuf.items := by
  have hlen := (hr.valid_front hbufs).length_content
  have hitems : r.items = front.items ++ rest.flatMap PipeBuf.items := by simp [items, hbufs]
  rw [hitems]
  cases hp : front.isPacket with
  | true =>
    have hfront : front.items = [.packet front.content] := by simp [PipeBuf.items, hp]
    simp [hfront, readItems_packet hpos]
  | false =>
    have hfront : front.items = front.content.map .byte := by simp [PipeBuf.items, hp]
    have hzero : remaining - front.content.length = 0 := by omega
    simp [hfront, readItems_bytes, hzero]

lemma drainTurn_partial (hr : Sound r) (hd : Sound dst) (hbufs : r.bufs = front :: rest)
    (hpos : 0 < remaining) (hfree : 0 < dst.freeSlots) (hlt : remaining < front.len)
    (hscratch : min remaining userPageSize ≤ scratch) :
    Turns scratch packetMode remaining r dst := by
  have hfront := hr.valid_front hbufs
  have hpage := hfront.inPage
  have haccept := canAcceptTransfer_of_free hfree (packetMode || front.isPacket)
  have hcap := (le_transferCapacity hfree (packetMode || front.isPacket)).1
  have hdescriptor : r.drainDescriptorToRing dst remaining packetMode = some none := by
    have hmin : min front.len remaining ≠ front.len := by omega
    simp [drainDescriptorToRing, hbufs, hmin]
  have htarget : min scratch
      (min remaining (dst.transferCapacity (packetMode || front.isPacket))) = remaining := by omega
  obtain ⟨r', hdrain, hritems, hrsound, -⟩ := drainToSlice_spec hr remaining
  obtain ⟨hread, hleft⟩ := readItems_front hr hbufs hpos hlt
  rw [hread] at hdrain
  have hreadlen := length_take_content hfront hlt.le
  have hne : front.content.take remaining ≠ [] := by
    rw [← length_pos_iff]
    omega
  obtain ⟨d', hd', hdsound, hditems⟩ := fillFromSlice_free hfront hlt.le hd hfree hpos packetMode
  refine ⟨!front.isPacket, remaining, r', d', ?_,
    turn_front hfront hbufs hfree hpos hlt.le hrsound hdsound hditems (hritems.trans hleft) ?_⟩
  · simp only [drainTurn, hbufs, haccept, hdescriptor, htarget, hdrain, hd', hne, hreadlen,
      Nat.pos_iff_ne_zero.mp hpos, bind_eq_bind, bind_some, if_false,
      Nat.lt_irrefl, decide_false, Bool.not_true, Bool.or_false, Bool.false_or, Bool.false_eq_true]
  · intro hp
    rw [Nat.sub_self]
    exact iff_of_false not_crosses_zero (not_crosses_of_le hbufs hp hfree hlt.le)

/-! ### Copying behind the last buffer -/

lemma exists_leadingStream (bufs : List PipeBuf) (h : ∀ b ∈ bufs, b.Valid) :
    ∃ (bs : List UInt8) (rest : List Item), bufs.flatMap PipeBuf.items = bs.map .byte ++ rest ∧
      bs.length = totalLen (leadingStream bufs) ∧
      (rest = [] ∧ (leadingStream bufs).length = bufs.length ∨
        ∃ p rest', rest = .packet p :: rest' ∧ (leadingStream bufs).length < bufs.length) := by
  induction bufs with
  | nil => exact ⟨[], [], by simp, by simp [leadingStream], .inl ⟨rfl, by simp [leadingStream]⟩⟩
  | cons b bufs ih =>
    have hb := h b mem_cons_self
    cases hp : b.isPacket with
    | true =>
      refine ⟨[], .packet b.content :: bufs.flatMap PipeBuf.items, ?_, ?_, .inr ⟨_, _, rfl, ?_⟩⟩
      · simp [PipeBuf.items, hp]
      · simp [leadingStream_packet hp]
      · simp [leadingStream_packet hp]
    | false =>
      obtain ⟨bs, rest, hitems, hlen, hrest⟩ := ih fun b' hb' => h b' (mem_cons_of_mem _ hb')
      refine ⟨b.content ++ bs, rest, ?_, ?_, ?_⟩
      · simp [hitems, PipeBuf.items, hp]
      · simp [leadingStream_stream hp, hb.length_content, hlen]
      · simpa [leadingStream_stream hp] using hrest

lemma Sound.bufs_eq_nil (h : Sound r) (hitems : r.items = []) : r.bufs = [] := by
  rcases hbufs : r.bufs with _ | ⟨front, rest⟩
  · rfl
  have hfront := (h.valid_front hbufs).items_ne_nil
  simp [items, hbufs, hfront] at hitems

lemma length_readItems_le (n : ℕ) (items : List Item) : (readItems n items).1.length ≤ n := by
  induction n generalizing items with
  | zero => simp
  | succ n ih =>
    rcases items with _ | ⟨b | p, items⟩
    · simp
    · simpa [readItems] using ih items
    · simp [readItems]

lemma fillFromSlice_full (hd : Sound dst) (hfree : dst.freeSlots = 0) {bytes : List UInt8}
    (hle : bytes.length ≤ dst.tailMerge) :
    ∃ d', dst.fillFromSlice bytes false = some (bytes.length, d') ∧
      d'.items = dst.items ++ bytes.map .byte ∧ Sound d' ∧ d'.freeSlots = 0 ∧
      d'.tailMerge = dst.tailMerge - bytes.length := by
  obtain ⟨d', happend, hitems, hsound, -, hfree', htail⟩ := appendTail_spec hd bytes
  rw [Nat.min_eq_right hle] at happend hitems
  rw [take_length] at hitems
  refine ⟨d', ?_, hitems, hsound, hfree'.trans hfree, htail⟩
  simp [fillFromSlice, happend, hfree', hfree, fillPages]

/-- Without a free slot, stream bytes are copied behind the last buffer of the destination. -/
lemma drainTurn_full (hr : Sound r) (hd : Sound dst) (hbufs : r.bufs = front :: rest)
    (hstream : front.isPacket = false) (hpos : 0 < remaining) (hfree : dst.freeSlots = 0)
    (hroom : 0 < dst.tailMerge) (hscratch : min remaining userPageSize ≤ scratch)
    (htail : dst.tailMerge ≤ userPageSize) :
    Turns scratch false remaining r dst := by
  have hfull : dst.isFull = true := (isFull_iff dst).mpr hfree
  have hcap : dst.availableWriteCapacity = dst.tailMerge := by simp [availableWriteCapacity, hfree]
  have haccept : dst.canAcceptTransfer false = true := by simp [canAcceptTransfer, hcap, hroom]
  have hdescriptor : r.drainDescriptorToRing dst remaining false = some none := by
    simp [drainDescriptorToRing, hfull]
  have htarget : min scratch (min remaining (dst.transferCapacity false)) =
      min remaining dst.tailMerge := by
    simp only [transferCapacity, Bool.false_eq_true, if_false, hcap]
    omega
  set target := min remaining dst.tailMerge with htargetdef
  have htarget0 : target ≠ 0 := by omega
  obtain ⟨r', hdrain, hritems, hrsound, -⟩ := drainToSlice_spec hr target
  obtain ⟨bs, behind, hitems, hbs, hbehind⟩ := exists_leadingStream r.bufs hr.bufs
  have hread := readItems_bytes target bs behind
  have hlead : leadingStream r.bufs ≠ [] := by simp [hbufs, leadingStream_stream hstream]
  have hbspos : 0 < bs.length := by
    have := (hr.valid_front hbufs).nonempty
    simp only [hbs, hbufs, leadingStream_stream hstream, totalLen_cons]
    omega
  rw [← hitems] at hread
  have hread' : readItems target r.items = _ := hread
  set read := (readItems target r.items).1 with hreaddef
  have hreadlen : read.length ≤ target := length_readItems_le _ _
  have hne : read ≠ [] := by
    rw [← length_pos_iff, hreaddef, hread']
    simp only [length_append, length_take]
    omega
  obtain ⟨d', hfill, hditems, hdsound, hdfree, hdtail⟩ :=
    fillFromSlice_full hd hfree (by omega : read.length ≤ dst.tailMerge)
  refine ⟨true, read.length, r', d', ?_, ?_⟩
  · simp only [drainTurn, hbufs, hstream, Bool.or_false, haccept, hdescriptor, htarget, hdrain,
      hfill, hne, Nat.pos_iff_ne_zero.mp hpos, bind_eq_bind, bind_some, if_false,
      Nat.lt_irrefl, decide_false, Bool.not_true, Bool.not_false, Bool.false_eq_true, htarget0]
  refine ⟨hrsound, hdsound, fun _ => length_pos_iff.mpr hne, by simp, fun _ _ => ⟨rfl, hdfree⟩,
    fun _ => ?_⟩
  by_cases hshort : target ≤ bs.length
  · -- the copy stays within the stream bytes and uses up the room or the length
    have hzero : target - bs.length = 0 := by omega
    rw [hzero, readItems_zero, append_nil] at hread'
    have hlen : read.length = target := by
      rw [hreaddef, hread']
      simp only [length_take]
      omega
    refine .inl ⟨streamMoves_bytes ?_ hditems, ?_⟩
    · rw [hritems, hreaddef, hread', ← append_assoc, ← map_append, take_append_drop]
      exact hitems
    refine iff_of_false (not_crosses_full hdfree ?_) (not_crosses_full hfree ?_)
    · rw [hdtail]
      omega
    · omega
  rcases hbehind with ⟨rfl, hall⟩ | ⟨p, behind', rfl, hmore⟩
  · -- there is no packet, and the source is emptied
    rw [readItems_nil, append_nil, take_of_length_le (by omega),
      drop_of_length_le (by omega), map_nil, append_nil] at hread'
    have hnil : r'.bufs = [] := hrsound.bufs_eq_nil (by rw [hritems, hread'])
    refine .inl ⟨streamMoves_bytes ?_ hditems, ?_⟩
    · rw [hritems, hreaddef, hread']
      exact hitems
    refine iff_of_false ?_ ?_
    · rintro ⟨-, hlt, -⟩
      simp [hnil, leadingStream] at hlt
    · rintro ⟨-, -, hlt, -⟩
      omega
  · -- the copy runs into the packet
    rw [readItems_packet (by omega), drop_of_length_le (by omega), map_nil,
      nil_append] at hread'
    refine .inr ⟨crosses_full hfree hlead hmore (by omega), hfree,
      bs.map .byte ++ [.packet p], read, p, ?_, by simp, hditems⟩
    rw [hritems, hread', append_assoc]
    exact hitems

lemma tailMerge_lt (h : Sound r) : r.tailMerge < userPageSize := by
  unfold tailMerge
  rcases hlast : r.bufs.getLast? with _ | b
  · decide
  have hb := (h.bufs b (mem_of_getLast? hlast)).nonempty
  simp only [Option.map_some, Option.getD_some, mergeSpace]
  split_ifs
  · split <;> simp only [userPageSize] <;> omega
  · decide

/-! ### The loop -/

lemma drainTurn_spec (packetMode : Bool) (hr : Sound r) (hd : Sound dst)
    (hscratch : min remaining userPageSize ≤ scratch) :
    Turns scratch packetMode remaining r dst := by
  rcases hbufs : r.bufs with _ | ⟨front, rest⟩
  · refine ⟨false, 0, r, dst, by simp [drainTurn, hbufs], turn_stop hr hd ?_⟩
    rintro ⟨-, hlt, -⟩
    simp [hbufs, leadingStream] at hlt
  by_cases hzero : remaining = 0
  · exact ⟨false, 0, r, dst, by simp [drainTurn, hbufs, hzero],
      turn_stop hr hd (hzero ▸ not_crosses_zero)⟩
  have hpos : 0 < remaining := Nat.pos_of_ne_zero hzero
  by_cases haccept : dst.canAcceptTransfer (packetMode || front.isPacket) = true
  · rcases Nat.eq_zero_or_pos dst.freeSlots with hfree | hfree
    · obtain ⟨hout, hroom⟩ := stream_of_canAcceptTransfer hfree haccept
      obtain ⟨rfl, hstream⟩ := Bool.or_eq_false_iff.mp hout
      exact drainTurn_full hr hd hbufs hstream hpos hfree hroom hscratch (tailMerge_lt hd).le
    · rcases Nat.lt_or_ge remaining front.len with hlt | hle
      · exact drainTurn_partial hr hd hbufs hpos hfree hlt hscratch
      · exact drainTurn_descriptor hr hd hbufs hpos hfree hle
  · rw [Bool.not_eq_true] at haccept
    exact ⟨false, 0, r, dst, by simp [drainTurn, hbufs, haccept],
      turn_stop hr hd (not_crosses_of_not_accept hbufs haccept)⟩

/-- What the loop does as a whole. -/
structure Drained (r dst r' dst' : PipeRing) (packetMode : Bool) (len n : ℕ) : Prop where
  soundSrc : Sound r'
  soundDst : Sound dst'
  moves : ¬ Crosses r dst len packetMode → Moves n r.items r'.items dst.items dst'.items
  spoils : Crosses r dst len packetMode → Spoils r.items r'.items dst.items dst'.items
  full : dst.freeSlots = 0 → ∃ (taken : List Item) (bs : List UInt8),
    r.items = taken ++ r'.items ∧ dst'.items = dst.items ++ bs.map .byte

/-- One more turn in front: a turn that spoils is not made good by the following ones. -/
lemma Turn.drained {r1 d1 r' d' : PipeRing} (h : Turn r dst r1 d1 packetMode remaining n true)
    (h' : Drained r1 d1 r' d' packetMode (remaining - n) m) :
    Drained r dst r' d' packetMode remaining (n + m) := by
  rcases h.more rfl with ⟨hstream, hcrosses⟩ | ⟨hcrosses, hfree, hspoils⟩
  · refine ⟨h'.soundSrc, h'.soundDst, fun hc => hstream.moves (h'.moves (hcrosses.not.mpr hc)),
      fun hc => ?_, fun hfree => ?_⟩
    · obtain rfl : packetMode = false := hc.1
      exact hstream.spoils (h'.spoils (hcrosses.mpr hc))
    obtain ⟨rfl, hfree'⟩ := h.full rfl hfree
    obtain ⟨bs, sent, hs, hd, -, -, hsent⟩ := hstream
    obtain ⟨taken, bs', htaken, hadded⟩ := h'.full hfree'
    exact ⟨bs.map .byte ++ taken, bs ++ bs', by simp [hs, htaken], by simp [hadded, hd, hsent rfl]⟩
  · obtain ⟨taken, bs, p, hs, hp, hd⟩ := hspoils
    obtain ⟨-, hfree'⟩ := h.full rfl hfree
    obtain ⟨taken', bs', htaken, hadded⟩ := h'.full hfree'
    have hleft : r.items = (taken ++ taken') ++ r'.items := by simp [hs, htaken]
    have harrived : d'.items = dst.items ++ (bs ++ bs').map .byte := by simp [hadded, hd]
    exact ⟨h'.soundSrc, h'.soundDst, fun hc => absurd hcrosses hc,
      fun _ => ⟨taken ++ taken', bs ++ bs', p, hleft, by simp [hp], harrived⟩,
      fun _ => ⟨taken ++ taken', bs ++ bs', hleft, harrived⟩⟩

/-- Every turn moves a byte or is the last, so `remaining` turns are enough. -/
lemma drainLoop_spec (fuel : ℕ) (hfuel : remaining ≤ fuel) (hr : Sound r) (hd : Sound dst)
    (hscratch : min remaining userPageSize ≤ scratch) :
    ∃ n r' d', drainLoop scratch packetMode fuel remaining r dst = some (n, r', d') ∧
      Drained r dst r' d' packetMode remaining n := by
  induction fuel generalizing remaining r dst with
  | zero =>
    obtain rfl : remaining = 0 := by omega
    exact ⟨0, r, dst, rfl, hr, hd, fun _ => moves_zero _ _, fun hc => absurd hc not_crosses_zero,
      fun _ => ⟨[], [], by simp, by simp⟩⟩
  | succ fuel ih =>
    obtain ⟨goOn, n, r1, d1, hturn, hspec⟩ := drainTurn_spec packetMode hr hd hscratch
    cases goOn with
    | true =>
      have hn := hspec.pos rfl
      have hfuel' : remaining - n ≤ fuel := by omega
      obtain ⟨m, r', d', hloop, hdrained⟩ := ih hfuel' hspec.soundSrc hspec.soundDst (by omega)
      exact ⟨n + m, r', d', by simp [drainLoop, hturn, hloop], hspec.drained hdrained⟩
    | false =>
      obtain ⟨hcrosses, hmoves, hfull⟩ := hspec.last rfl
      refine ⟨n, r1, d1, by simp [drainLoop, hturn], hspec.soundSrc, hspec.soundDst,
        fun _ => hmoves, fun hc => absurd hc hcrosses, fun hfree => ?_⟩
      obtain ⟨rfl, rfl⟩ := hfull hfree
      exact ⟨[], [], by simp, by simp⟩

/-! ### Duplicating -/

variable {b : PipeBuf} {bufs : List PipeBuf} {chunk : ℕ}

section

variable (hb : b.Valid) (hd : Sound dst)

include hb hd

lemma teeBuf_free (hfree : 0 < dst.freeSlots) (hpos : 0 < chunk)
    (hle : chunk ≤ b.len) (packetMode : Bool) :
    ∃ d', teeBuf b dst chunk packetMode = some (chunk, d') ∧ Sound d' ∧
      d'.items = dst.items ++ duplicated b chunk packetMode := by
  have hpage := hb.inPage
  cases hclone : b.clonePrefix chunk with
  | some clone =>
    obtain rfl : { b with len := chunk } = clone := by
      unfold clonePrefix at hclone
      split at hclone <;> simp_all
    have hvalid : PipeBuf.Valid { b with len := chunk } :=
      ⟨hpos, by simp only; omega, hb.whole⟩
    have hcontent : content { b with len := chunk } = b.content.take chunk := by
      simp [content, take_take, Nat.min_eq_left hle]
    obtain ⟨hsound, hitems⟩ := pushTransferredBuf_spec hd hvalid hfree packetMode
    rw [hcontent] at hitems
    exact ⟨_, by simp [teeBuf, isFull_of_free hfree, hclone], hsound, hitems⟩
  | none =>
    obtain ⟨d', hfill, hsound, hitems⟩ := fillFromSlice_free hb hle hd hfree hpos packetMode
    exact ⟨d', by simp [teeBuf, isFull_of_free hfree, hclone, hb.copyToSlice hle, hfill], hsound,
      hitems⟩

lemma teeBuf_full (hstream : b.isPacket = false)
    (hfree : dst.freeSlots = 0) (hle : chunk ≤ b.len) (hroom : chunk ≤ dst.tailMerge) :
    ∃ d', teeBuf b dst chunk false = some (chunk, d') ∧ Sound d' ∧
      d'.items = dst.items ++ duplicated b chunk false ∧ d'.freeSlots = 0 ∧
      d'.tailMerge = dst.tailMerge - chunk := by
  have hlen := length_take_content hb hle
  obtain ⟨d', hfill, hitems, hsound, hfree', htail⟩ :=
    fillFromSlice_full hd hfree (hlen.le.trans hroom)
  rw [hlen] at hfill htail
  refine ⟨d', ?_, hsound, by simpa [duplicated, hstream] using hitems, hfree', htail⟩
  simp [teeBuf, (isFull_iff dst).mpr hfree, hb.copyToSlice hle, hstream, hfill]

lemma teeBuf_spec (hpos : 0 < remaining)
    (haccept : dst.canAcceptTransfer (packetMode || b.isPacket) = true) :
    ∃ chunk d', chunk = min b.len (min remaining (dst.transferCapacity (packetMode || b.isPacket)))
      ∧ teeBuf b dst chunk packetMode = some (chunk, d') ∧ Sound d' ∧
      d'.items = dst.items ++ duplicated b chunk packetMode ∧ 0 < chunk ∧ chunk ≤ b.len ∧
      (chunk < b.len → remaining - chunk = 0 ∨ d'.freeSlots = 0 ∧ d'.tailMerge = 0) := by
  set chunk := min b.len (min remaining (dst.transferCapacity (packetMode || b.isPacket)))
    with hchunk
  have hnonempty := hb.nonempty
  have hpage := hb.inPage
  rcases Nat.eq_zero_or_pos dst.freeSlots with hfree | hfree
  · obtain ⟨hout, hroom⟩ := stream_of_canAcceptTransfer hfree haccept
    obtain ⟨rfl, hstream⟩ := Bool.or_eq_false_iff.mp hout
    have hcap : dst.transferCapacity (false || b.isPacket) = dst.tailMerge := by
      simp [transferCapacity, hstream, availableWriteCapacity, hfree]
    obtain ⟨d', htee, hsound, hitems, hfree', htail⟩ :=
      teeBuf_full hb hd hstream hfree (by omega : chunk ≤ b.len) (by omega)
    exact ⟨chunk, d', rfl, htee, hsound, hitems, by omega, by omega, fun _ => by omega⟩
  · have hcap := (le_transferCapacity hfree (packetMode || b.isPacket)).1
    have hchunkpos : 0 < chunk := by
      omega
    obtain ⟨d', htee, hsound, hitems⟩ := teeBuf_free hb hd hfree hchunkpos (by omega) packetMode
    exact ⟨chunk, d', rfl, htee, hsound, hitems, hchunkpos, by omega, fun _ => by omega⟩

end

lemma teeLoop_stop (h : remaining = 0 ∨ dst.freeSlots = 0 ∧ dst.tailMerge = 0) :
    teeLoop packetMode bufs remaining dst = some (0, dst) := by
  rcases bufs with _ | ⟨b, bufs⟩
  · rfl
  rcases h with rfl | ⟨hfree, htail⟩
  · simp [teeLoop]
  have haccept (packet : Bool) : dst.canAcceptTransfer packet = false := by
    cases packet <;>
      simp [canAcceptTransfer, (isFull_iff dst).mpr hfree, availableWriteCapacity, hfree, htail]
  simp [teeLoop, haccept]

lemma teeLoop_spec (packetMode : Bool) (remaining : ℕ) (hbufs : ∀ b ∈ bufs, b.Valid)
    (hd : Sound dst) :
    ∃ n d' rest, teeLoop packetMode bufs remaining dst = some (n, d') ∧ Sound d' ∧
      Moves n (bufs.flatMap PipeBuf.items) rest dst.items d'.items := by
  induction bufs generalizing remaining dst with
  | nil => exact ⟨0, dst, [], rfl, hd, moves_zero _ _⟩
  | cons b bufs ih =>
    have hb := hbufs b mem_cons_self
    have hlen := hb.length_content
    by_cases hstop : remaining = 0 ∨ dst.canAcceptTransfer (packetMode || b.isPacket) = false
    · refine ⟨0, dst, _, ?_, hd, moves_zero _ _⟩
      rcases hstop with rfl | haccept
      · simp [teeLoop]
      · simp [teeLoop, haccept]
    obtain ⟨hpos, haccept⟩ := not_or.mp hstop
    rw [Bool.not_eq_false] at haccept
    obtain ⟨chunk, d1, hchunk, htee, hsound, hitems, hchunkpos, hle, hlast⟩ :=
      teeBuf_spec hb hd (Nat.pos_of_ne_zero hpos) haccept
    have hturn : teeLoop packetMode (b :: bufs) remaining dst =
        if b.isPacket then some (chunk, d1)
        else (teeLoop packetMode bufs (remaining - chunk) d1).map fun x => (chunk + x.1, x.2) := by
      rw [teeLoop, if_neg hpos]
      simp only [haccept, if_true, ← hchunk, Nat.pos_iff_ne_zero.mp hchunkpos, if_false, htee,
        bind_eq_bind, bind_some, map_eq_bind]
      rfl
    cases hp : b.isPacket with
    | true =>
      refine ⟨chunk, d1, bufs.flatMap PipeBuf.items, by rw [hturn, if_pos hp], hsound, ?_⟩
      rw [hitems]
      exact moves_packet hb hle hp _ _
    | false =>
      have hpart : StreamMoves packetMode chunk _ _ _ _ :=
        streamMoves_front hb hle hp (bufs.flatMap PipeBuf.items) dst.items
      rw [← hitems] at hpart
      rw [if_neg (by simp [hp])] at hturn
      rcases Nat.lt_or_ge chunk b.len with hlt | hge
      · refine ⟨chunk, d1, _, ?_, hsound, by simpa using hpart.moves (moves_zero _ _)⟩
        rw [hturn, teeLoop_stop (hlast hlt)]
        rfl
      obtain ⟨m, d', rest, hrest, hsound', hmoves⟩ :=
        ih (remaining - chunk) (fun b' hb' => hbufs b' (mem_cons_of_mem _ hb')) hsound
      rw [drop_of_length_le (by omega), map_nil, nil_append] at hpart
      exact ⟨chunk + m, d', rest, by rw [hturn, hrest]; rfl, hsound',
        by simpa using hpart.moves hmoves⟩

end PipeRing

/-! ### The two calls -/

namespace PipePayload

def Counts (n : ℕ) (o : StepOutcome ℕ) : Prop :=
  (0 < n → o = .done n) ∧ ∀ k, o = .done k → k = n

/-- As many bytes as a splice reports went from the front of the source to the end of the
destination. -/
def SpliceConserves (src dst : PipePayload) (len : ℕ) (nonblocking packetMode : Bool) : Prop :=
  ∃ src' dst' o n, src.stepSpliceToPipe dst len nonblocking packetMode = some (src', dst', o) ∧
    src'.ring.Sound ∧ dst'.ring.Sound ∧
    Moves n src.ring.items src'.ring.items dst.ring.items dst'.ring.items ∧ Counts n o

/-- The source is as before, and as many of its first bytes as a tee reports were added to the
destination. -/
def TeeConserves (src dst : PipePayload) (len : ℕ) (nonblocking packetMode : Bool) : Prop :=
  ∃ dst' o n rest, src.stepTeeToPipe dst len nonblocking packetMode = some (src, dst', o) ∧
    dst'.ring.Sound ∧ Moves n src.ring.items rest dst.ring.items dst'.ring.items ∧
    flat dst'.ring.items = flat dst.ring.items ++ (flat src.ring.items).take n ∧ Counts n o

lemma counts_transferOutcome (src : PipePayload) (n : ℕ) (srcEmpty dstAccepts nonblocking : Bool) :
    Counts n (src.transferOutcome n srcEmpty dstAccepts nonblocking) := by
  unfold transferOutcome
  rcases Nat.eq_zero_or_pos n with rfl | hn
  · refine ⟨fun h => absurd h (Nat.lt_irrefl 0), fun k hk => ?_⟩
    rw [if_neg (Nat.lt_irrefl 0)] at hk
    split_ifs at hk
    simp_all
  · rw [if_pos hn]
    exact ⟨fun _ => rfl, fun k hk => by simpa using hk.symm⟩

variable {src dst : PipePayload} {len : ℕ} {nonblocking packetMode : Bool}

lemma not_crosses_of_idle
    (h : (src.ring.isEmpty || !dst.ring.canAcceptTransfer (src.packetOut packetMode)) = true) :
    ¬ src.ring.Crosses dst.ring len packetMode := by
  rcases hbufs : src.ring.bufs with _ | ⟨front, rest⟩
  · rintro ⟨-, hlt, -⟩
    simp [hbufs, leadingStream] at hlt
  · refine not_crosses_of_not_accept hbufs ?_
    simpa [PipeRing.isEmpty, packetOut, hbufs] using h

lemma transfer_cases (src dst : PipePayload) (len : ℕ) (nonblocking packetMode : Bool) :
    (∃ o, src.stepSpliceToPipe dst len nonblocking packetMode = some (src, dst, o) ∧
        src.stepTeeToPipe dst len nonblocking packetMode = some (src, dst, o) ∧ Counts 0 o ∧
        ¬ (dst.readerCount ≠ 0 ∧ src.ring.Crosses dst.ring len packetMode)) ∨
      dst.readerCount ≠ 0 ∧ ∃ o : ℕ → StepOutcome ℕ, (∀ n, Counts n (o n)) ∧
        src.stepSpliceToPipe dst len nonblocking packetMode =
          ((src.ring.drainToRing dst.ring len packetMode).map fun (n, r', d') =>
            ({ src with ring := r' }, { dst with ring := d' }, o n)) ∧
        src.stepTeeToPipe dst len nonblocking packetMode =
          ((src.ring.teeToRing dst.ring len packetMode).map fun (n, d') =>
            (src, { dst with ring := d' }, o n)) := by
  by_cases hlen : len = 0
  · subst hlen
    exact .inl ⟨.done 0, rfl, rfl, ⟨by simp, by simp⟩, fun h => not_crosses_zero h.2⟩
  by_cases hreader : dst.readerCount = 0
  · exact .inl ⟨.err .epipe, by simp [stepSpliceToPipe, hlen, hreader],
      by simp [stepTeeToPipe, hlen, hreader], ⟨by simp, by simp⟩, fun h => h.1 hreader⟩
  rw [stepSpliceToPipe, stepTeeToPipe, if_neg hlen, if_neg hreader, if_neg hlen, if_neg hreader]
  by_cases hidle :
      (src.ring.isEmpty || !dst.ring.canAcceptTransfer (src.packetOut packetMode)) = true
  · simp only [hidle, if_true]
    exact .inl ⟨_, rfl, rfl, counts_transferOutcome _ _ _ _ _,
      fun h => not_crosses_of_idle hidle h.2⟩
  · simp only [hidle, Bool.false_eq_true, if_false, bind_eq_bind, map_eq_bind]
    exact .inr ⟨hreader, _, fun n => counts_transferOutcome _ n _ _ _, rfl, rfl⟩

/-- **Splice**: bytes are conserved exactly when the copy does not run into a packet. -/
lemma spliceConserves_iff (hs : src.ring.Sound) (hd : dst.ring.Sound) :
    SpliceConserves src dst len nonblocking packetMode ↔
      ¬ (dst.readerCount ≠ 0 ∧ src.ring.Crosses dst.ring len packetMode) := by
  rcases transfer_cases src dst len nonblocking packetMode with
    ⟨o, hstep, -, ho, hcrosses⟩ | ⟨hreader, o, ho, hstep, -⟩
  · exact iff_of_true ⟨src, dst, o, 0, hstep, hs, hd, moves_zero _ _, ho⟩ hcrosses
  obtain ⟨n, r', d', hdrain, hspec⟩ := drainLoop_spec len le_rfl hs hd le_rfl
  rw [drainToRing, hdrain, map_some] at hstep
  constructor
  · rintro ⟨src', dst', o, m, hstep', -, -, hmoves, -⟩ ⟨-, hcrosses⟩
    rw [hstep, some_inj, Prod.mk.injEq, Prod.mk.injEq] at hstep'
    obtain ⟨rfl, rfl, -⟩ := hstep'
    exact (hspec.spoils hcrosses).not_moves hmoves
  · intro h
    have hcrosses : ¬ src.ring.Crosses dst.ring len packetMode := fun hc => h ⟨hreader, hc⟩
    exact ⟨_, _, _, n, hstep, hspec.soundSrc, hspec.soundDst, hspec.moves hcrosses, ho n⟩

lemma teeConserves (hs : src.ring.Sound) (hd : dst.ring.Sound) :
    TeeConserves src dst len nonblocking packetMode := by
  rcases transfer_cases src dst len nonblocking packetMode with
    ⟨o, -, hstep, ho, -⟩ | ⟨-, o, ho, -, hstep⟩
  · have hmoves := moves_zero src.ring.items dst.ring.items
    exact ⟨dst, o, 0, _, hstep, hd, hmoves, hmoves.flat_eq, ho⟩
  obtain ⟨n, d', rest, htee, hsound, hmoves⟩ := teeLoop_spec packetMode len hs.bufs hd
  rw [teeToRing, htee, map_some] at hstep
  exact ⟨_, _, n, rest, hstep, hsound, hmoves, hmoves.flat_eq, ho n⟩

/-- **Transfers conserve bytes** between any two sound pipes, except that a splice mixes a packet
into stream bytes if it uses up the free slots before the packet and then has more room and length
than there are stream bytes in front of it. -/
theorem transfer_conserves (src dst : PipePayload) (hs : src.ring.Sound) (hd : dst.ring.Sound)
    (len : ℕ) (nonblocking packetMode : Bool) :
    (SpliceConserves src dst len nonblocking packetMode ↔
      ¬ (dst.readerCount ≠ 0 ∧ src.ring.Crosses dst.ring len packetMode)) ∧
    TeeConserves src dst len nonblocking packetMode :=
  ⟨spliceConserves_iff hs hd, teeConserves hs hd⟩

/-- Three stream bytes go into an empty pipe. -/
theorem transfer_conserves_threeBytes :
    SpliceConserves { new with ring := .pushBuf .new ⟨.anonPage (.zero _), 0, 3, .stream⟩ } new 2
        false false ∧
      TeeConserves { new with ring := .pushBuf .new ⟨.anonPage (.zero _), 0, 3, .stream⟩ } new 2
        false false := by
  have hbuf : PipeBuf.Valid ⟨.anonPage (.zero _), 0, 3, .stream⟩ :=
    ⟨by decide, by decide, by simp [PipeBuf.isPacket, BufFlags.stream]⟩
  have hsound := (PipeRing.sound_new.pushBuf hbuf (by decide)).1
  obtain ⟨hsplice, htee⟩ := transfer_conserves
    { new with ring := .pushBuf .new ⟨.anonPage (.zero _), 0, 3, .stream⟩ } new hsound
    PipeRing.sound_new 2 false false
  exact ⟨hsplice.mpr (by decide), htee⟩

/-- A splice of two bytes, a stream byte and a packet of two bytes behind it, into a full pipe takes
the whole packet, adds its first byte to the stream and loses the other. -/
theorem splice_mixes_packet :
    (do
      let (src, _) ← Runs.run PipePayload.step new [.write [1] false false,
        .write [2, 3] false true]
      let (dst, _) ← Runs.run PipePayload.step new [.setSize 4096, .write [9] false false]
      let (src', dst', o) ← src.stepSpliceToPipe dst 2 false false
      some (src.ring.items, src'.ring.items, dst.ring.items, dst'.ring.items, o)) =
      some ([.byte 1, .packet [2, 3]], [], [.byte 9], [.byte 9, .byte 1, .byte 2], .done 2) ∧
    ∀ n, ¬ Moves n [.byte 1, .packet [2, 3]] [] [.byte 9] [.byte 9, .byte 1, .byte 2] :=
  ⟨by decide +kernel, fun _ => Spoils.not_moves
    ⟨[.byte 1, .packet [2, 3]], [1, 2], [2, 3], rfl, by simp, rfl⟩⟩

end PipePayload

end TxKernel.Pipe
