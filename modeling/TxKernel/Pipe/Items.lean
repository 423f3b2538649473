import Mathlib.Algebra.Order.BigOperators.Group.List
import TxKernel.Pipe.Ring

/-!
What a pipe carries: a queue of single bytes and of packets. A read stops behind the first packet it
meets, and what it leaves of that packet is lost.
-/

namespace TxKernel.Pipe

open Bytes List PipeBuf Option PipeStorage BufFlags

inductive Item
  | byte (b : UInt8)
  | packet (p : List UInt8)
  deriving DecidableEq

/-- The bytes that a read of up to `n` bytes returns, and the queue it leaves. -/
def readItems : ℕ → List Item → List UInt8 × List Item
  | 0, items => ([], items)
  | _ + 1, [] => ([], [])
  | n + 1, .byte b :: items => (b :: (readItems n items).1, (readItems n items).2)
  | n + 1, .packet p :: items => (p.take (n + 1), items)

@[simp] lemma readItems_zero (items : List Item) : readItems 0 items = ([], items) := by
  simp [readItems]

@[simp] lemma readItems_nil (n : ℕ) : readItems n [] = ([], []) := by
  cases n <;> simp [readItems]

lemma readItems_bytes (n : ℕ) (bs : List UInt8) (items : List Item) :
    readItems n (bs.map .byte ++ items) =
      (bs.take n ++ (readItems (n - bs.length) items).1,
        (bs.drop n).map .byte ++ (readItems (n - bs.length) items).2) := by
  induction bs generalizing n with
  | nil => simp
  | cons b bs ih =>
    cases n with
    | zero => simp
    | succ n => simp [readItems, ih]

lemma readItems_packet {n : ℕ} (hn : 0 < n) (p : List UInt8) (items : List Item) :
    readItems n (.packet p :: items) = (p.take n, items) := by
  cases n with
  | zero => omega
  | succ n => rfl

lemma readItems_taken (n : ℕ) (items : List Item) :
    ∃ bs tail, items = bs.map .byte ++ tail ++ (readItems n items).2 ∧
      (tail = [] ∧ (readItems n items).1 = bs ∨
        ∃ p, tail = [.packet p] ∧ (readItems n items).1 = bs ++ p.take (n - bs.length)) := by
  induction n generalizing items with
  | zero => exact ⟨[], [], by simp⟩
  | succ n ih =>
    rcases items with _ | ⟨item, items⟩
    · exact ⟨[], [], by simp⟩
    cases item with
    | byte b =>
      obtain ⟨bs, tail, hitems, htail⟩ := ih items
      refine ⟨b :: bs, tail, by simpa [readItems] using hitems, ?_⟩
      rcases htail with ⟨rfl, hbs⟩ | ⟨p, rfl, hp⟩
      · exact .inl ⟨rfl, by simp [readItems, hbs]⟩
      · exact .inr ⟨p, rfl, by simp [readItems, hp]⟩
    | packet p => exact ⟨[], [.packet p], by simp [readItems], .inr ⟨p, rfl, by simp [readItems]⟩⟩

def packetsOf (bytes : List UInt8) : List Item :=
  if bytes = [] then []
  else .packet (bytes.take pipeBufLimit) :: packetsOf (bytes.drop pipeBufLimit)
termination_by bytes.length
decreasing_by
  rename_i h
  have := length_pos_iff.mpr h
  simp only [length_drop, pipeBufLimit]
  omega

@[simp] lemma packetsOf_nil : packetsOf [] = [] := by simp [packetsOf]

lemma packetsOf_of_ne_nil {bytes : List UInt8} (h : bytes ≠ []) :
    packetsOf bytes =
      .packet (bytes.take pipeBufLimit) :: packetsOf (bytes.drop pipeBufLimit) := by
  conv_lhs => rw [packetsOf, if_neg h]

def writtenItems (packetMode : Bool) (bytes : List UInt8) : List Item :=
  if packetMode then packetsOf bytes else bytes.map .byte

/-! ### The queue that a ring represents -/

namespace PipeBuf

def content (b : PipeBuf) : List UInt8 := (b.storage.frame.bytes.drop b.offset).take b.len

def items (b : PipeBuf) : List Item :=
  if b.isPacket then [.packet b.content] else b.content.map .byte

/-- The contents lie in the page, are not empty, and packets are not merged into. -/
structure Valid (b : PipeBuf) : Prop where
  nonempty : 0 < b.len
  inPage : b.offset + b.len ≤ userPageSize
  whole : b.isPacket = true → b.flags.canMerge = false

variable {b : PipeBuf}

lemma Valid.length_content (h : b.Valid) : b.content.length = b.len := by
  have := h.inPage
  simp [content]
  omega

lemma Valid.copyToSlice (h : b.Valid) {n : ℕ} (hn : n ≤ b.len) :
    b.copyToSlice n = some (b.content.take n) := by
  have := h.inPage
  rw [PipeBuf.copyToSlice, slice_of_le (by simp; omega), content, take_take,
    Nat.min_eq_left hn]

lemma Valid.take_min (h : b.Valid) (n : ℕ) : b.content.take (min n b.len) = b.content.take n := by
  rw [← h.length_content, take_eq_take_iff]
  omega

lemma Valid.items_ne_nil (h : b.Valid) : b.items ≠ [] := by
  have hlen := h.length_content
  have := h.nonempty
  unfold items
  split_ifs
  · simp
  intro hnil
  rw [map_eq_nil_iff] at hnil
  simp [hnil] at hlen
  omega

end PipeBuf

namespace PipeRing

def items (r : PipeRing) : List Item := r.bufs.flatMap PipeBuf.items

def totalLen (bufs : List PipeBuf) : ℕ := (bufs.map PipeBuf.len).sum

/-- The counters of the ring are right, no buffer is empty, and the slots in use fit the pipe. -/
structure Sound (r : PipeRing) : Prop where
  bytes : r.bytes = totalLen r.bufs
  bufs : ∀ b ∈ r.bufs, b.Valid
  slots : r.bufs.length + r.reservedGiftSlots ≤ r.maxUsage
  size : r.maxUsage * userPageSize ≤ pipeMaxSize

@[simp] lemma totalLen_nil : totalLen [] = 0 := rfl

@[simp] lemma totalLen_cons (b : PipeBuf) (bufs : List PipeBuf) :
    totalLen (b :: bufs) = b.len + totalLen bufs := by simp [totalLen]

@[simp] lemma totalLen_append (bufs bufs' : List PipeBuf) :
    totalLen (bufs ++ bufs') = totalLen bufs + totalLen bufs' := by simp [totalLen]

lemma sound_new : Sound new := ⟨rfl, by simp [new], by simp [new, pipeDefBuffers], by decide⟩

structure SameSlots (r r' : PipeRing) : Prop where
  maxUsage : r'.maxUsage = r.maxUsage
  reserved : r'.reservedGiftSlots = r.reservedGiftSlots

lemma SameSlots.refl (r : PipeRing) : SameSlots r r := ⟨rfl, rfl⟩

lemma SameSlots.trans {r r' r'' : PipeRing} (h : SameSlots r r') (h' : SameSlots r' r'') :
    SameSlots r r'' := ⟨h'.maxUsage.trans h.maxUsage, h'.reserved.trans h.reserved⟩

section

variable (r : PipeRing) (st : PipeStorage)

@[simp] lemma bufs_releaseStorage : (r.releaseStorage st).bufs = r.bufs := by
  unfold releaseStorage
  split
  · split_ifs <;> rfl
  · rfl
  · rfl

@[simp] lemma bytes_releaseStorage : (r.releaseStorage st).bytes = r.bytes := by
  unfold releaseStorage
  split
  · split_ifs <;> rfl
  · rfl
  · rfl

lemma sameSlots_releaseStorage : SameSlots r (r.releaseStorage st) := by
  unfold releaseStorage
  split
  · split_ifs <;> exact ⟨rfl, rfl⟩
  · exact ⟨rfl, rfl⟩
  · exact ⟨rfl, rfl⟩

@[simp] lemma items_releaseStorage :
    (r.releaseStorage st).items = r.items := by simp [items]

end

variable {r : PipeRing} {b : PipeBuf}

lemma Sound.releaseStorage (h : Sound r) (st : PipeStorage) : Sound (r.releaseStorage st) := by
  have hsame := sameSlots_releaseStorage r st
  exact ⟨by simpa using h.bytes, by simpa using h.bufs,
    by simpa [hsame.maxUsage, hsame.reserved] using h.slots, hsame.maxUsage ▸ h.size⟩

lemma checkedSub_of_le {a b : ℕ} (h : b ≤ a) : checkedSub a b = some (a - b) := if_pos h

lemma items_advance (h : b.Valid) (hstream : b.isPacket = false) {n : ℕ} (hn : n < b.len) :
    PipeBuf.Valid { b with offset := b.offset + n, len := b.len - n } ∧
      PipeBuf.items { b with offset := b.offset + n, len := b.len - n } =
        (b.content.drop n).map .byte := by
  have := h.inPage
  refine ⟨⟨by simp only; omega, by simp only; omega, h.whole⟩, ?_⟩
  have hstream' : isPacket { b with offset := b.offset + n, len := b.len - n } = false :=
    hstream
  rw [PipeBuf.items, if_neg (by simp [hstream'])]
  simp [PipeBuf.content, drop_take, drop_drop]

/-- **Reading** takes from the queue what a read takes. -/
lemma drain_spec (n : ℕ) (bufs : List PipeBuf) (r : PipeRing) (h : Sound { r with bufs }) :
    ∃ r', drain n bufs r = some ((readItems n (bufs.flatMap PipeBuf.items)).1, r') ∧
      r'.items = (readItems n (bufs.flatMap PipeBuf.items)).2 ∧ Sound r' ∧ SameSlots r r' := by
  induction bufs generalizing n r with
  | nil => cases n <;> exact ⟨_, rfl, by simp [items], h, ⟨rfl, rfl⟩⟩
  | cons front rest ih =>
    rcases n with _ | n
    · exact ⟨_, rfl, by simp [items], h, ⟨rfl, rfl⟩⟩
    have hfront : front.Valid := h.bufs front mem_cons_self
    have hrest : ∀ b ∈ rest, b.Valid := fun b hb => h.bufs b (mem_cons_of_mem _ hb)
    have hbytes : r.bytes = front.len + totalLen rest := by simpa using h.bytes
    have hslots : rest.length + 1 + r.reservedGiftSlots ≤ r.maxUsage := by simpa using h.slots
    have hcopy := hfront.copyToSlice (Nat.min_le_right (n + 1) front.len)
    have hlen := hfront.length_content
    have hleft := checkedSub_of_le (Nat.min_le_right (n + 1) front.len)
    have hchunk : checkedSub r.bytes (min (n + 1) front.len) =
        some (r.bytes - min (n + 1) front.len) := checkedSub_of_le (by omega)
    rw [drain]
    simp only [hcopy, hleft, hchunk, bind_eq_bind, bind_some, flatMap_cons, hfront.take_min]
    -- the ring without its front buffer
    have hwithout : Sound { r with bytes := r.bytes - front.len, bufs := rest } :=
      ⟨by simp only; omega, hrest, by simp only; omega, h.size⟩
    by_cases hpacket : front.isPacket = true
    · have hdiscard : checkedSub (r.bytes - min (n + 1) front.len)
          (front.len - min (n + 1) front.len) = some (r.bytes - front.len) := by
        rw [checkedSub_of_le (by omega)]
        congr 1
        omega
      have hitems : front.items = [.packet front.content] := by simp [PipeBuf.items, hpacket]
      simp only [hpacket, if_true, hdiscard, bind_some, hitems, singleton_append,
        readItems_packet n.succ_pos]
      refine ⟨_, rfl, ?_, hwithout.releaseStorage _, ?_⟩
      · rw [items_releaseStorage]
        rfl
      have hsame := sameSlots_releaseStorage
        { r with bytes := r.bytes - front.len, bufs := rest } front.storage
      exact ⟨hsame.maxUsage, hsame.reserved⟩
    rw [Bool.not_eq_true] at hpacket
    have hitems : front.items = front.content.map .byte := by simp [PipeBuf.items, hpacket]
    simp only [hpacket, Bool.false_eq_true, if_false, hitems, readItems_bytes, hlen]
    by_cases hall : front.len ≤ n + 1
    · -- the buffer is used up and the read goes on behind it
      have hmin : min (n + 1) front.len = front.len := by omega
      have hsame := sameSlots_releaseStorage { r with bytes := r.bytes - front.len } front.storage
      have hnext : Sound { { r with bytes := r.bytes - front.len }.releaseStorage front.storage
          with bufs := rest } :=
        ⟨by simp only [bytes_releaseStorage]; omega, hrest,
          by simp only [hsame.maxUsage, hsame.reserved]; omega, by simpa [hsame.maxUsage] using
            h.size⟩
      obtain ⟨r', hr', hritems, hsound, hslots'⟩ := ih (n + 1 - front.len) _ hnext
      have htake : front.content.take (n + 1) = front.content :=
        take_of_length_le (by omega)
      have hdrop : front.content.drop (n + 1) = [] := drop_of_length_le (by omega)
      simp only [hmin, Nat.sub_self, if_true, hr', bind_some, htake, hdrop, map_nil, nil_append]
      exact ⟨r', rfl, hritems, hsound, ⟨hslots'.maxUsage.trans hsame.maxUsage,
        hslots'.reserved.trans hsame.reserved⟩⟩
    · -- the read ends inside the buffer
      have hmin : min (n + 1) front.len = n + 1 := by omega
      have hzero : n + 1 - front.len = 0 := by omega
      have hne : front.len - (n + 1) ≠ 0 := by omega
      obtain ⟨hvalid, hadvance⟩ := items_advance hfront hpacket (by omega : n + 1 < front.len)
      simp only [hmin, hzero, hne, if_false, readItems_zero, append_nil]
      refine ⟨_, rfl, ?_, ?_, ⟨rfl, rfl⟩⟩
      · simp [items, hadvance]
      refine ⟨by simp only [totalLen_cons]; omega, ?_, by simp only [length_cons]; omega,
        h.size⟩
      intro b hb
      rcases mem_cons.mp hb with rfl | hb
      · exact hvalid
      · exact hrest b hb

lemma drainToSlice_spec (h : Sound r) (n : ℕ) :
    ∃ r', r.drainToSlice n = some ((readItems n r.items).1, r') ∧
      r'.items = (readItems n r.items).2 ∧ Sound r' ∧ SameSlots r r' :=
  drain_spec n r.bufs r h

lemma copyFrom_spec (n : ℕ) (bufs : List PipeBuf) (h : ∀ b ∈ bufs, b.Valid) :
    copyFrom n bufs = some (readItems n (bufs.flatMap PipeBuf.items)).1 := by
  induction bufs generalizing n with
  | nil => cases n <;> simp [copyFrom]
  | cons front rest ih =>
    rcases n with _ | n
    · simp [copyFrom]
    have hfront : front.Valid := h front mem_cons_self
    have hcopy := hfront.copyToSlice (Nat.min_le_right (n + 1) front.len)
    have hrest := ih (n + 1 - min (n + 1) front.len) fun b hb => h b (mem_cons_of_mem _ hb)
    have hlen := hfront.length_content
    simp only [copyFrom, hcopy, bind_eq_bind, bind_some, flatMap_cons, hfront.take_min, hrest]
    by_cases hpacket : front.isPacket = true
    · have hitems : front.items = [.packet front.content] := by simp [PipeBuf.items, hpacket]
      simp [hpacket, hitems, readItems_packet]
    have hitems : front.items = front.content.map .byte := by simp [PipeBuf.items, hpacket]
    have hsub : n + 1 - min (n + 1) front.len = n + 1 - front.len := by omega
    simp [hpacket, hitems, readItems_bytes, hlen, hsub]

lemma copyToSlice_spec (h : Sound r) (n : ℕ) : r.copyToSlice n = some (readItems n r.items).1 :=
  copyFrom_spec n r.bufs h.bufs

/-! ### Filling -/

def asItems (flags : BufFlags) (bytes : List UInt8) : List Item :=
  if flags.packet then [.packet bytes] else bytes.map .byte

def filled (flags : BufFlags) (limit : ℕ) : ℕ → List UInt8 → List Item
  | 0, _ => []
  | slots + 1, bytes =>
    if bytes = [] then []
    else asItems flags (bytes.take limit) ++ filled flags limit slots (bytes.drop limit)

lemma filled_nil (flags : BufFlags) (limit slots : ℕ) : filled flags limit slots [] = [] := by
  cases slots <;> simp [filled]

lemma filled_stream (limit slots : ℕ) (bytes : List UInt8) :
    filled .stream limit slots bytes = (bytes.take (slots * limit)).map .byte := by
  induction slots generalizing bytes with
  | zero => simp [filled]
  | succ slots ih =>
    by_cases hnil : bytes = []
    · simp [hnil, filled_nil]
    rw [filled, if_neg hnil, ih, asItems, if_neg (by simp [stream]), ← map_append,
      Nat.succ_mul, Nat.add_comm, take_add]

lemma filled_packets (slots : ℕ) (bytes : List UInt8) :
    filled ⟨false, true⟩ pipeBufLimit slots bytes =
      packetsOf (bytes.take (slots * pipeBufLimit)) := by
  induction slots generalizing bytes with
  | zero => simp [filled]
  | succ slots ih =>
    by_cases hnil : bytes = []
    · simp [hnil, filled_nil]
    have hpos : 0 < pipeBufLimit := by decide
    have hne : bytes.take ((slots + 1) * pipeBufLimit) ≠ [] := by
      simp only [ne_eq, take_eq_nil_iff, hnil, or_false]
      exact Nat.mul_ne_zero (by omega) (by omega)
    rw [filled, if_neg hnil, ih, packetsOf_of_ne_nil hne, asItems, if_pos rfl, take_take, drop_take]
    have hmin : min pipeBufLimit ((slots + 1) * pipeBufLimit) = pipeBufLimit := by
      rw [Nat.succ_mul]
      omega
    have hsub : (slots + 1) * pipeBufLimit - pipeBufLimit = slots * pipeBufLimit := by
      rw [Nat.succ_mul]
      omega
    rw [hmin, hsub]
    rfl

lemma exists_put_zero (page : Page) (d : List UInt8) (h : d.length ≤ userPageSize) :
    ∃ page', page.put 0 d = some page' ∧ page'.bytes.take d.length = d := by
  obtain ⟨page', hput, hbytes⟩ := Buf.put_of_le page 0 d (by omega)
  refine ⟨page', hput, ?_⟩
  simp [hbytes, splice]

lemma takeAnonPage_spec (r : PipeRing) :
    r.takeAnonPage.2.bufs = r.bufs ∧ r.takeAnonPage.2.bytes = r.bytes ∧
      SameSlots r r.takeAnonPage.2 := by
  unfold takeAnonPage
  split <;> exact ⟨rfl, rfl, ⟨rfl, rfl⟩⟩

lemma Sound.pushBuf (h : Sound r) (hb : b.Valid) (hfree : 0 < r.freeSlots) :
    Sound (r.pushBuf b) ∧ (r.pushBuf b).items = r.items ++ b.items := by
  refine ⟨⟨?_, ?_, ?_, h.size⟩, by simp [PipeRing.pushBuf, items]⟩
  · simp [PipeRing.pushBuf, h.bytes]
  · intro b' hb'
    rcases mem_append.mp hb' with hb' | hb'
    · exact h.bufs b' hb'
    · rwa [mem_singleton.mp hb']
  · simp only [freeSlots, occupiedSlots] at hfree
    simp only [PipeRing.pushBuf, length_append, length_singleton]
    omega

/-- **Filling**: pages take the bytes in order, as many as the free slots have room for. -/
lemma fillPages_spec (flags : BufFlags) (limit : ℕ)
    (hflags : flags.packet = true → flags.canMerge = false) (hpos : 0 < limit)
    (hlimit : limit ≤ userPageSize) (slots : ℕ) (bytes : List UInt8) (r : PipeRing) (h : Sound r)
    (hslots : slots ≤ r.freeSlots) :
    ∃ r', fillPages flags limit slots bytes r = some (min bytes.length (slots * limit), r') ∧
      r'.items = r.items ++ filled flags limit slots bytes ∧ Sound r' ∧ SameSlots r r' := by
  induction slots generalizing bytes r with
  | zero => exact ⟨r, by simp [fillPages], by simp [filled], h, SameSlots.refl r⟩
  | succ slots ih =>
    by_cases hnil : bytes = []
    · exact ⟨r, by simp [fillPages, hnil], by simp [filled, hnil], h, SameSlots.refl r⟩
    have hlen := length_pos_iff.mpr hnil
    obtain ⟨hbufs, hbytes, hsame⟩ := takeAnonPage_spec r
    rcases hpage : r.takeAnonPage with ⟨page, r1⟩
    rw [hpage] at hbufs hbytes hsame
    simp only at hbufs hbytes hsame
    obtain ⟨page', hput, hcontent⟩ := exists_put_zero page (bytes.take (min limit bytes.length))
      (by simp; omega)
    set buf : PipeBuf := ⟨.anonPage page', 0, min limit bytes.length, flags⟩ with hbuf
    have hvalid : buf.Valid := ⟨by simp only [hbuf]; omega, by simp only [hbuf]; omega, hflags⟩
    have hitems : buf.items = asItems flags (bytes.take limit) := by
      have htake : bytes.take (min limit bytes.length) = bytes.take limit := by
        rw [take_eq_take_iff]
        omega
      rw [length_take, Nat.min_eq_left (Nat.min_le_right _ _)] at hcontent
      simp only [PipeBuf.items, PipeBuf.isPacket, PipeBuf.content, hbuf, frame,
        drop_zero, hcontent, htake]
      rfl
    have h1 : Sound r1 := ⟨by rw [hbytes, hbufs]; exact h.bytes, by rw [hbufs]; exact h.bufs,
      by rw [hbufs, hsame.maxUsage, hsame.reserved]; exact h.slots, by
        rw [hsame.maxUsage]; exact h.size⟩
    have hfree : r1.freeSlots = r.freeSlots := by
      simp only [freeSlots, occupiedSlots, hbufs, hsame.maxUsage, hsame.reserved]
    obtain ⟨hpush, hpushed⟩ := h1.pushBuf hvalid (by omega)
    have hnext : slots ≤ (r1.pushBuf buf).freeSlots := by
      simp only [freeSlots, occupiedSlots, PipeRing.pushBuf, length_append,
        length_singleton] at hfree hslots ⊢
      omega
    obtain ⟨r', hr', hritems, hsound, hslots'⟩ :=
      ih (bytes.drop (min limit bytes.length)) (r1.pushBuf buf) hpush hnext
    have hdrop : bytes.drop (min limit bytes.length) = bytes.drop limit := by
      rcases Nat.le_total limit bytes.length with hle | hle
      · rw [Nat.min_eq_left hle]
      · rw [Nat.min_eq_right hle, drop_length, drop_of_length_le hle]
    refine ⟨r', ?_, ?_, hsound, ?_⟩
    · rw [fillPages, if_neg hnil, hpage]
      simp only [hput, bind_eq_bind, bind_some]
      have hr'' : fillPages flags limit slots (bytes.drop (min limit bytes.length))
          { r1 with bufs := r1.bufs ++ [buf], bytes := r1.bytes + min limit bytes.length } =
          some _ := hr'
      rw [hr'', bind_some, length_drop, Nat.succ_mul]
      congr 2
      omega
    · rw [hritems, hpushed, hitems, filled, if_neg hnil, hdrop, items, items, hbufs, append_assoc]
    · exact ⟨hslots'.maxUsage.trans hsame.maxUsage, hslots'.reserved.trans hsame.reserved⟩

lemma appendMerge_spec (h : b.Valid) (bytes : List UInt8) :
    ∃ b', b.appendMerge bytes = some (min b.mergeSpace bytes.length, b') ∧ b'.Valid ∧
      b'.len = b.len + min b.mergeSpace bytes.length ∧
      b'.mergeSpace = b.mergeSpace - bytes.length ∧
      b'.items = b.items ++ (bytes.take (min b.mergeSpace bytes.length)).map .byte := by
  unfold appendMerge
  by_cases hn : min b.mergeSpace bytes.length = 0
  · refine ⟨b, by simp only [hn, if_true], h, by omega, by omega, by simp [hn]⟩
  -- only an anonymous page has room
  obtain ⟨storage, offset, len, canMerge, packet⟩ := b
  have hmerge : canMerge = true := by
    by_contra hc
    simp [mergeSpace, hc] at hn
  subst hmerge
  have hstream : packet = false := by
    by_contra hp
    have := h.whole (by simpa [isPacket] using hp)
    simp at this
  subst hstream
  cases storage with
  | pageBackedLease frame | userPageGift frame => simp [mergeSpace] at hn
  | anonPage page =>
    simp only [mergeSpace, if_true] at hn ⊢
    set n := min (userPageSize - (offset + len)) bytes.length with hndef
    have hlen : (bytes.take n).length = n := by simp; omega
    obtain ⟨page', hput, hbytes⟩ :=
      Buf.put_of_le page (offset + len) (bytes.take n) (by rw [hlen]; omega)
    refine ⟨⟨.anonPage page', offset, len + n, true, false⟩, ?_, ?_, rfl, ?_, ?_⟩
    · simp only [hn, if_false, hput, bind_eq_bind, bind_some]
    · exact ⟨by simp only; omega, by simp only; omega, by simp [PipeBuf.isPacket]⟩
    · simp only [if_true]
      omega
    have hcontent : (page'.bytes.drop offset).take (len + n) =
        (page.bytes.drop offset).take len ++ bytes.take n := by
      rw [hbytes, splice, append_assoc, drop_append_of_le_length (by simp; omega),
        drop_take, Nat.add_sub_cancel_left, ← append_assoc,
        take_append_of_le_length (by simp; omega), take_of_length_le (by simp; omega)]
    simp [PipeBuf.items, PipeBuf.isPacket, PipeBuf.content, frame, hcontent]

lemma appendTail_spec (h : Sound r) (bytes : List UInt8) :
    ∃ r', r.appendTail bytes = some (min r.tailMerge bytes.length, r') ∧
      r'.items = r.items ++ (bytes.take (min r.tailMerge bytes.length)).map .byte ∧ Sound r' ∧
      SameSlots r r' ∧ r'.freeSlots = r.freeSlots ∧ r'.tailMerge = r.tailMerge - bytes.length := by
  rcases eq_nil_or_concat' r.bufs with hnil | ⟨init, tail, hbufs⟩
  · refine ⟨r, ?_, ?_, h, SameSlots.refl r, rfl, ?_⟩ <;> simp [appendTail, tailMerge, hnil]
  have htail : tail.Valid := h.bufs tail (by simp [hbufs])
  have hmerge : r.tailMerge = tail.mergeSpace := by simp [tailMerge, hbufs]
  obtain ⟨tail', happend, hvalid, hlen, hmerge', hitems⟩ := appendMerge_spec htail bytes
  rw [hmerge]
  refine ⟨{ r with bufs := init ++ [tail'], bytes := r.bytes + min tail.mergeSpace bytes.length },
    ?_, ?_, ⟨?_, ?_, ?_, h.size⟩, ⟨rfl, rfl⟩, ?_, ?_⟩
  · simp [appendTail, hbufs, happend]
  · simp [items, hbufs, hitems]
  · have := h.bytes
    simp only [hbufs, totalLen_append, totalLen_cons, totalLen_nil] at this ⊢
    omega
  · intro b hb
    rcases mem_append.mp hb with hb | hb
    · exact h.bufs b (by simp [hbufs, hb])
    · rwa [mem_singleton.mp hb]
  · have := h.slots
    simpa [hbufs] using this
  · simp [freeSlots, occupiedSlots, hbufs]
  · simp [tailMerge, hmerge']

def fillCapacity (r : PipeRing) (packetMode : Bool) : ℕ :=
  if packetMode then r.freeSlots * pipeBufLimit else r.availableWriteCapacity

lemma fillFromSlice_spec (h : Sound r) (bytes : List UInt8) (packetMode : Bool) :
    ∃ r', r.fillFromSlice bytes packetMode =
        some (min bytes.length (r.fillCapacity packetMode), r') ∧
      r'.items = r.items ++
        writtenItems packetMode (bytes.take (min bytes.length (r.fillCapacity packetMode))) ∧
      Sound r' ∧ SameSlots r r' := by
  have htake : ∀ n, bytes.take (min bytes.length n) = bytes.take n := by
    intro n
    rw [take_eq_take_iff]
    omega
  cases packetMode with
  | true =>
    obtain ⟨r', hr', hitems, hsound, hsame⟩ := fillPages_spec ⟨false, true⟩ pipeBufLimit
      (fun _ => rfl) (by decide) (by decide) r.freeSlots bytes r h le_rfl
    refine ⟨r', ?_, ?_, hsound, hsame⟩
    · exact hr'
    rw [hitems, filled_packets, htake]
    rfl
  | false =>
    obtain ⟨r1, hr1, hitems1, hsound1, hsame1, hfree, -⟩ := appendTail_spec h bytes
    obtain ⟨r2, hr2, hitems2, hsound2, hsame2⟩ := fillPages_spec .stream userPageSize
      (by simp [stream]) (by decide) le_rfl r1.freeSlots
      (bytes.drop (min r.tailMerge bytes.length)) r1 hsound1 le_rfl
    rw [hfree] at hr2 hitems2
    refine ⟨r2, ?_, ?_, hsound2, hsame1.trans hsame2⟩
    · simp only [fillFromSlice, Bool.false_eq_true, if_false, hr1, hr2, bind_eq_bind,
        bind_some, fillCapacity, availableWriteCapacity, length_drop, hfree]
      congr 2
      omega
    rw [hitems2, hitems1, filled_stream, append_assoc, ← map_append, Nat.min_comm, htake, htake]
    simp only [writtenItems, Bool.false_eq_true, if_false, fillCapacity, availableWriteCapacity,
      take_add]
    rcases Nat.le_total bytes.length r.tailMerge with hle | hle
    · rw [Nat.min_eq_left hle, drop_length, drop_of_length_le hle]
    · rw [Nat.min_eq_right hle]

end PipeRing

end TxKernel.Pipe
