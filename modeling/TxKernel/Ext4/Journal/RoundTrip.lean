import TxKernel.Ext4.Journal.Codec

/-!
What the journal codecs write, they read back. Encoders fill a zeroed page front to back; of the
journal superblock only the recovery state is rewritten, in place.
-/

namespace TxKernel.Ext4

open Bytes List Jbd2Header

variable {n : ℕ}

/-! ### Block headers -/

namespace Jbd2Header

def bytes (h : Jbd2Header) : List UInt8 :=
  be 4 JBD2_MAGIC.toNat ++ be 4 h.blockType.toNat ++ be 4 h.sequence.toNat

@[simp] lemma length_bytes (h : Jbd2Header) : h.bytes.length = 12 := by simp [bytes]

lemma parse_append (h : Jbd2Header) (rest : List UInt8) : parse (h.bytes ++ rest) = .ok h := by
  have h0 : readU32 (h.bytes ++ rest) 0 = .ok JBD2_MAGIC := by
    simpa [bytes] using readU32_append []
      (be 4 h.blockType.toNat ++ be 4 h.sequence.toNat ++ rest) JBD2_MAGIC rfl
  have h4 : readU32 (h.bytes ++ rest) 4 = .ok h.blockType := by
    simpa [bytes] using readU32_append (be 4 JBD2_MAGIC.toNat)
      (be 4 h.sequence.toNat ++ rest) h.blockType (length_be _ _)
  have h8 : readU32 (h.bytes ++ rest) 8 = .ok h.sequence :=
    readU32_append _ _ h.sequence (by simp)
  have hlen : requireLen (h.bytes ++ rest) encodedLen = .ok () :=
    requireLen_of_le (by simp [encodedLen])
  simp [parse, hlen, h0, h4, h8]

lemma encode_zero (h : Jbd2Header) (hn : 12 ≤ n) :
    ∃ b, h.encode (Buf.zero n) = .ok b ∧ b.Filled h.bytes := by
  obtain ⟨b₁, hw₁, hb₁⟩ :=
    filled_writeBe (show (Buf.zero n).Filled [] by simp [Buf.Filled, Buf.zero]) 0 rfl 4
      JBD2_MAGIC.toNat (by omega)
  obtain ⟨b₂, hw₂, hb₂⟩ :=
    filled_writeBe hb₁ 4 (by simp) 4 h.blockType.toNat (by omega)
  obtain ⟨b₃, hw₃, hb₃⟩ :=
    filled_writeBe hb₂ 8 (by simp) 4 h.sequence.toNat (by omega)
  have hlen : requireLen (Buf.zero n).bytes encodedLen = .ok () :=
    requireLen_of_le (by rw [Buf.length_eq]; exact hn)
  refine ⟨b₃, ?_, by simpa [bytes] using hb₃⟩
  simp [encode, hlen, writeU32, hw₁, hw₂, hw₃]

lemma parse_page (page : Page4K) : parse page.bytes =
    if u32At page.bytes 0 = JBD2_MAGIC then
      .ok ⟨u32At page.bytes 4, u32At page.bytes 8⟩
    else .error .badMagic := by
  have hlen := page.length_eq
  have hreq : requireLen page.bytes encodedLen = .ok () :=
    requireLen_of_le (by rw [hlen]; decide)
  rw [parse, hreq, readU32_of_le (by omega), readU32_of_le (by omega), readU32_of_le (by omega)]
  by_cases h : u32At page.bytes 0 = JBD2_MAGIC <;>
    simp [h]

end Jbd2Header

/-! ### The journal superblock -/

namespace Jbd2Superblock

variable {page page' : Page4K} {sb : Jbd2Superblock} {bytes : List UInt8}

def ValidChecksum (bytes : List UInt8) : Prop := Checksummed (u32At bytes 40) →
  bytes[CHECKSUM_TYPE_OFFSET]?.getD 0 = CRC32C_CHECKSUM_TYPE
    ∧ checksumOf bytes = u32At bytes CHECKSUM_OFFSET

/-- The fields of a superblock page that its recovery state does not change. -/
structure Static (bytes : List UInt8) (sb : Jbd2Superblock) : Prop where
  magic : u32At bytes 0 = JBD2_MAGIC
  blockType : u32At bytes 4 = sb.blockType
  version : sb.blockType = JBD2_BLOCK_SUPERBLOCK_V1 ∨ sb.blockType = JBD2_BLOCK_SUPERBLOCK_V2
  blockSize : u32At bytes 12 = sb.blockSize
  size : sb.blockSize = UInt32.ofNat JBD2_BLOCK_SIZE
  maxLen : u32At bytes 16 = sb.maxLen
  first : u32At bytes 20 = sb.first
  ring : ¬ (sb.maxLen ≤ 1 ∨ sb.first = 0 ∨ sb.maxLen ≤ sb.first)
  uuid : slice bytes 48 16 = some sb.uuid.bytes

/-- What a superblock page holds. -/
structure Holds (bytes : List UInt8) (sb : Jbd2Superblock) : Prop extends Static bytes sb where
  sequence : u32At bytes 24 = sb.sequence
  start : u32At bytes 28 = sb.start
  inRing : ¬ (sb.start ≠ 0 ∧ (sb.start < sb.first ∨ sb.maxLen ≤ sb.start))
  checksum : ValidChecksum bytes

lemma validateChecksum_eq_ok : validateChecksum page.bytes = .ok () ↔ ValidChecksum page.bytes := by
  have hlen := page.length_eq
  rw [validateChecksum, readU32_of_le (by omega), ok_bind, ValidChecksum]
  by_cases hc : Checksummed (u32At page.bytes 40)
  · have hreq : requireLen page.bytes CHECKSUM_COVERED_LEN = .ok () :=
      requireLen_of_le (by rw [hlen]; decide)
    rw [if_pos hc, hreq, ok_bind, check_eq_ok,
      readU32_of_le (by rw [hlen]; decide), ok_bind, not_not]
    simp [hc, getD]
  · simp [hc]

lemma parse_eq_ok : parse page.bytes = .ok sb ↔ Holds page.bytes sb := by
  have hlen := page.length_eq
  have hreq : requireLen page.bytes encodedLen = .ok () := requireLen_of_le (by rw [hlen]; decide)
  have huuid : readArray 16 page.bytes 48 = .ok ⟨(page.bytes.drop 48).take 16, by simp⟩ := by
    rw [readArray, dif_pos (by rw [hlen]; decide)]
  rw [parse, hreq, ok_bind, parse_page, readU32_of_le (by omega),
    readU32_of_le (by omega), readU32_of_le (by omega), readU32_of_le (by omega),
    readU32_of_le (by omega), huuid]
  by_cases hm : u32At page.bytes 0 = JBD2_MAGIC
  · simp only [if_pos hm, ok_bind, check_eq_ok, pure_eq_ok, Except.ok.injEq, bind_eq_ok]
    constructor
    · rintro ⟨hversion, hsize, hring, hin, _, hsum, rfl⟩
      refine ⟨⟨hm, rfl, ?_, rfl, not_not.mp hsize, rfl, rfl, hring, ?_⟩, rfl, rfl, hin,
        validateChecksum_eq_ok.mp hsum⟩
      · rwa [not_and_or, not_not, not_not] at hversion
      · exact slice_of_le (by omega)
    intro h
    refine ⟨?_, ?_, ?_, ?_, (), validateChecksum_eq_ok.mpr h.checksum, ?_⟩
    · rw [not_and_or, not_not, not_not, h.blockType]
      exact h.version
    · rw [not_not, h.blockSize]
      exact h.size
    · rw [h.maxLen, h.first]
      exact h.ring
    · rw [h.start, h.first, h.maxLen]
      exact h.inRing
    have huuid := h.uuid
    rw [slice_of_le (by omega), Option.some_inj] at huuid
    rcases sb with ⟨_, _, _, _, _, _, _⟩
    simp only [Jbd2Superblock.mk.injEq]
    exact ⟨h.blockType, h.blockSize, h.maxLen, h.first, h.sequence, h.start, Buf.ext huuid⟩
  · rw [if_neg hm]
    exact ⟨fun h => (by cases h), fun h => absurd h.magic hm⟩

lemma Static.splice {d : List UInt8} {off : ℕ} (h : Static bytes sb) (hlen : bytes.length = 4096)
    (hd : d.length = 4) (hoff : off = 24 ∨ off = 28 ∨ off = 252) :
    Static (splice bytes off d) sb := by
  have hfit : off + d.length ≤ bytes.length := by omega
  refine ⟨?_, ?_, h.version, ?_, h.size, ?_, ?_, h.ring, ?_⟩
  · rw [u32At_splice_of_disjoint hfit (by omega) (by omega), h.magic]
  · rw [u32At_splice_of_disjoint hfit (by omega) (by omega), h.blockType]
  · rw [u32At_splice_of_disjoint hfit (by omega) (by omega), h.blockSize]
  · rw [u32At_splice_of_disjoint hfit (by omega) (by omega), h.maxLen]
  · rw [u32At_splice_of_disjoint hfit (by omega) (by omega), h.first]
  · rw [slice_splice_of_disjoint hfit (by omega), h.uuid]

lemma checksumOf_splice {d : List UInt8} (hlen : bytes.length = 4096) (hd : d.length = 4) :
    checksumOf (splice bytes CHECKSUM_OFFSET d) = checksumOf bytes := by
  have hoff : CHECKSUM_OFFSET = 252 := rfl
  have hdrop := drop_splice (l := bytes) (d := d) (by omega : CHECKSUM_OFFSET ≤ bytes.length)
  rw [hd] at hdrop
  rw [checksumOf, take_splice (by omega) (le_refl _), hdrop, checksumOf]

lemma crc32cAppend_splice_zero (hlen : bytes.length = 4096) :
    crc32cAppend 0xFFFFFFFF ((splice bytes CHECKSUM_OFFSET (be 4 0)).take CHECKSUM_COVERED_LEN)
      = checksumOf bytes := by
  have hsplit : (splice bytes CHECKSUM_OFFSET (be 4 0)).take CHECKSUM_COVERED_LEN
      = bytes.take CHECKSUM_OFFSET ++ replicate 4 0
        ++ (bytes.drop (CHECKSUM_OFFSET + 4)).take
          (CHECKSUM_COVERED_LEN - (CHECKSUM_OFFSET + 4)) := by
    have hpre : (bytes.take CHECKSUM_OFFSET ++ replicate 4 (0 : UInt8)).length
        = CHECKSUM_OFFSET + 4 := by
      simp [hlen, CHECKSUM_OFFSET]
    rw [splice, be_zero, take_append, hpre, length_replicate,
      take_of_length_le (by rw [hpre]; decide)]
  rw [hsplit, crc32cAppend_append, crc32cAppend_append, checksumOf]

lemma writeState_ok {sequence start : UInt32} (h : sb.writeState page sequence start = .ok page') :
    parse page'.bytes = .ok { sb with sequence := sequence, start := start } := by
  have hlen := page.length_eq
  rw [writeState, bind_eq_ok] at h
  obtain ⟨observed, hparse, h⟩ := h
  rw [check_eq_ok, check_eq_ok] at h
  obtain ⟨hsame, hin, h⟩ := h
  simp only [not_or, not_not] at hsame
  obtain ⟨htype, hsize, hmax, hfirst, huuid⟩ := hsame
  have hobs : Static page.bytes sb := by
    have hs := (parse_eq_ok.mp hparse).toStatic
    exact ⟨hs.magic, htype ▸ hs.blockType, htype ▸ hs.version, hsize ▸ hs.blockSize,
      hsize ▸ hs.size, hmax ▸ hs.maxLen, hfirst ▸ hs.first, hmax ▸ hfirst ▸ hs.ring,
      huuid ▸ hs.uuid⟩
  obtain ⟨p₁, hw₁, hp₁⟩ := writeU32_of_le page 24 sequence (by decide)
  obtain ⟨p₂, hw₂, hp₂⟩ := writeU32_of_le p₁ 28 start (by decide)
  have hlen₁ := p₁.length_eq
  have hlen₂ := p₂.length_eq
  have hs₁ : Static p₁.bytes sb := hp₁ ▸ hobs.splice hlen (by simp) (.inl rfl)
  have hs₂ : Static p₂.bytes sb := hp₂ ▸ hs₁.splice hlen₁ (by simp) (.inr (.inl rfl))
  have hseq₂ : u32At p₂.bytes 24 = sequence := by
    rw [hp₂, u32At_splice_of_disjoint (by simp) (by simp) (by omega), hp₁,
      u32At_splice_self _ (by omega)]
  have hstart₂ : u32At p₂.bytes 28 = start := by
    rw [hp₂, u32At_splice_self _ (by omega)]
  rw [hw₁, ok_bind, hw₂, ok_bind, readU32_of_le (by omega), ok_bind] at h
  refine parse_eq_ok.mpr ?_
  by_cases hc : Checksummed (u32At p₂.bytes 40)
  · rw [if_pos hc, check_eq_ok, not_not] at h
    obtain ⟨hcrc, h⟩ := h
    obtain ⟨p₃, hw₃, hp₃⟩ := writeU32_of_le p₂ CHECKSUM_OFFSET 0 (by decide)
    rw [hw₃, ok_bind, hp₃, show (0 : UInt32).toNat = 0 from rfl, crc32cAppend_splice_zero hlen₂]
      at h
    obtain ⟨p₄, hw₄, hp₄⟩ :=
      writeU32_of_le p₃ CHECKSUM_OFFSET (checksumOf p₂.bytes) (by decide)
    rw [hw₄, Except.ok.injEq] at h
    subst h
    have hlen₃ := p₃.length_eq
    have hoff : CHECKSUM_OFFSET = 252 := rfl
    have hfit₂ : CHECKSUM_OFFSET + (be 4 (0 : UInt32).toNat).length ≤
      p₂.bytes.length := by simp [hoff]
    have hfit₃ : CHECKSUM_OFFSET + (be 4 (checksumOf p₂.bytes).toNat).length ≤ p₃.bytes.length := by
      simp [hoff]
    have hs₄ : Static p₄.bytes sb := hp₄ ▸
      (hp₃ ▸ hs₂.splice hlen₂ (by simp) (.inr (.inr rfl)) : Static p₃.bytes sb).splice hlen₃
        (by simp) (.inr (.inr rfl))
    have hkeep : ∀ off, off + 4 ≤ 252 → u32At p₄.bytes off = u32At p₂.bytes off := by
      intro off ho
      rw [hp₄, u32At_splice_of_disjoint hfit₃ (.inl (by omega)) (by omega), hp₃,
        u32At_splice_of_disjoint hfit₂ (.inl (by omega)) (by omega)]
    refine ⟨⟨hs₄.1, hs₄.2, hs₄.3, hs₄.4, hs₄.5, hs₄.6, hs₄.7, hs₄.8, hs₄.9⟩, ?_, ?_, hin, fun _ =>
      ⟨?_, ?_⟩⟩
    · rw [hkeep 24 (by decide), hseq₂]
    · rw [hkeep 28 (by decide), hstart₂]
    · rw [hp₄, getElem?_splice_of_disjoint hfit₃ (.inl (by decide)), hp₃,
        getElem?_splice_of_disjoint hfit₂ (.inl (by decide))]
      exact hcrc
    · rw [hp₄, checksumOf_splice hlen₃ (by simp), u32At_splice_self _ (by omega), hp₃,
        checksumOf_splice hlen₂ (by simp)]
  · rw [if_neg hc, pure_eq_ok, Except.ok.injEq] at h
    subst h
    exact ⟨⟨hs₂.1, hs₂.2, hs₂.3, hs₂.4, hs₂.5, hs₂.6, hs₂.7, hs₂.8, hs₂.9⟩, hseq₂, hstart₂, hin,
      fun h => absurd h hc⟩

end Jbd2Superblock

/-! ### Descriptor blocks -/

namespace Jbd2Tag

variable {tag : Jbd2Tag} {b b' : Buf n}

def WellFormed (tag : Jbd2Tag) : Prop := tag.sameUuid = tag.uuid.isNone

def bytes (tag : Jbd2Tag) : List UInt8 :=
  be 4 tag.targetBlock.toNat ++ be 2 tag.checksum.toNat ++ be 2 tag.flags.toNat
    ++ (tag.uuid.elim [] Buf.bytes)

lemma length_bytes (h : tag.WellFormed) : tag.bytes.length = tag.encodedLen := by
  rw [WellFormed] at h
  rcases hu : tag.uuid with _ | u <;>
    simp [bytes, encodedLen, baseLen, h, hu]

lemma flags_bits (tag : Jbd2Tag) : tag.flags &&& TAG_UNSUPPORTED = 0
    ∧ decide (tag.flags &&& TAG_ESCAPE ≠ 0) = tag.escaped
    ∧ decide (tag.flags &&& TAG_SAME_UUID ≠ 0) = tag.sameUuid
    ∧ decide (tag.flags &&& TAG_DELETED ≠ 0) = tag.deleted
    ∧ decide (tag.flags &&& TAG_LAST ≠ 0) = tag.last := by
  rw [flags]
  cases tag.escaped <;> cases tag.sameUuid <;> cases tag.deleted <;> cases tag.last <;> decide

lemma parseLegacy_append (h : tag.WellFormed) (rest : List UInt8) :
    parseLegacy (tag.bytes ++ rest) = .ok (tag, tag.encodedLen) := by
  obtain ⟨hun, hesc, hsame, hdel, hlast⟩ := tag.flags_bits
  have hlen := length_bytes h
  have h0 : readU32 (tag.bytes ++ rest) 0 = .ok tag.targetBlock := by
    simpa [bytes] using readU32_append [] (be 2 tag.checksum.toNat ++ be 2 tag.flags.toNat
        ++ (tag.uuid.elim [] Buf.bytes) ++ rest) tag.targetBlock rfl
  have h4 : readU16 (tag.bytes ++ rest) 4 = .ok tag.checksum := by
    simpa [bytes] using readU16_append (be 4 tag.targetBlock.toNat)
      (be 2 tag.flags.toNat ++ (tag.uuid.elim [] Buf.bytes) ++ rest) tag.checksum (length_be _ _)
  have h6 : readU16 (tag.bytes ++ rest) 6 = .ok tag.flags := by
    simpa [bytes] using readU16_append (be 4 tag.targetBlock.toNat ++ be 2 tag.checksum.toNat)
      ((tag.uuid.elim [] Buf.bytes) ++ rest) tag.flags (by simp)
  have hreq : requireLen (tag.bytes ++ rest) tag.encodedLen = .ok () :=
    requireLen_of_le (by simp [hlen])
  have hbase : requireLen (tag.bytes ++ rest) baseLen = .ok () :=
    requireLen_of_le (by simp [hlen, encodedLen]; omega)
  rw [WellFormed] at h
  have huuid : parseUuid tag.sameUuid (tag.bytes ++ rest) = .ok tag.uuid := by
    rcases hu : tag.uuid with _ | u
    · simp [parseUuid, h, hu]
    have hread : readArray 16 (tag.bytes ++ rest) baseLen = .ok u := by
      refine readArray_of_slice ?_
      have : tag.bytes ++ rest = (be 4 tag.targetBlock.toNat ++ be 2 tag.checksum.toNat
          ++ be 2 tag.flags.toNat) ++ u.bytes ++ rest := by
        simp [bytes, hu]
      rw [this]
      exact slice_append (by simp [baseLen]) u.length_eq
    simp [parseUuid, h, hu, hread, Except.map]
  have hlen' : baseLen + (if tag.sameUuid then 0 else 16) = tag.encodedLen := rfl
  rw [parseLegacy, hbase, h6]
  simp only [ok_bind, hun, hsame, hesc, hdel, hlast, hlen', hreq, huuid, h0, h4, pure_eq_ok, ne_eq,
    not_true_eq_false, ↓reduceIte]

lemma encodeLegacy_ok {w : ℕ} (hb : b.Filled []) (h : tag.encodeLegacy b = .ok (b', w)) :
    tag.WellFormed ∧ w = tag.encodedLen ∧ b'.Filled tag.bytes := by
  rw [encodeLegacy, check_eq_ok, bind_eq_ok] at h
  obtain ⟨hwf, _, hreq, h⟩ := h
  have hwf : tag.sameUuid = tag.uuid.isNone := not_not.mp hwf
  have hn : tag.encodedLen ≤ n := b.length_eq ▸ le_of_requireLen hreq
  have hbase : 8 ≤ tag.encodedLen := by simp [encodedLen, baseLen]
  obtain ⟨b₁, hw₁, hb₁⟩ := filled_writeBe hb 0 rfl 4 tag.targetBlock.toNat (by omega)
  obtain ⟨b₂, hw₂, hb₂⟩ := filled_writeBe hb₁ 4 (by simp) 2 tag.checksum.toNat (by omega)
  obtain ⟨b₃, hw₃, hb₃⟩ := filled_writeBe hb₂ 6 (by simp) 2 tag.flags.toNat (by omega)
  simp only [writeU32, writeU16, hw₁, hw₂, hw₃, ok_bind] at h
  refine ⟨hwf, ?_⟩
  rcases hu : tag.uuid with _ | u
  · simp only [hu, pure_eq_ok, Except.ok.injEq, Prod.mk.injEq] at h
    obtain ⟨rfl, rfl⟩ := h
    exact ⟨rfl, by simpa [bytes, hu] using hb₃⟩
  have hsize : baseLen + u.bytes.length ≤ n := by
    simp [encodedLen, hwf, hu] at hn
    simpa using hn
  obtain ⟨b₄, hw₄, hb₄⟩ := hb₃.put baseLen (by simp [baseLen]) hsize
  simp only [hu, hw₄, pure_eq_ok, Except.ok.injEq, Prod.mk.injEq] at h
  obtain ⟨rfl, rfl⟩ := h
  exact ⟨rfl, by simpa [bytes, hu] using hb₄⟩

end Jbd2Tag

namespace Jbd2Descriptor

variable {tags : List Jbd2Tag} {b b' : Buf n} {pre : List UInt8}

def tagBytes (tags : List Jbd2Tag) : List UInt8 := tags.flatMap Jbd2Tag.bytes

lemma encodeTags_ok {off : ℕ} (hb : b.Filled pre) (hoff : pre.length = off)
    (h : encodeTags tags off b = .ok b') : b'.Filled (pre ++ tagBytes tags)
      ∧ (∀ tag ∈ tags, tag.WellFormed)
      ∧ ∀ k tag, tags[k]? = some tag → (tag.last = true ↔ k + 1 = tags.length) := by
  induction tags generalizing b pre off with
  | nil =>
    rw [encodeTags, Except.ok.injEq] at h
    subst h
    exact ⟨by simpa [tagBytes] using hb, by simp, by simp⟩
  | cons tag tags ih =>
    have hn : off ≤ n := hoff ▸ hb.length_le
    rw [encodeTags, check_eq_ok, dif_pos hn, bind_eq_ok] at h
    obtain ⟨hlast, ⟨s, w⟩, htag, h⟩ := h
    obtain ⟨hwf, rfl, hs⟩ := Jbd2Tag.encodeLegacy_ok (hb.suffix hoff) htag
    obtain ⟨hb', hwfs, hlasts⟩ := ih (hb.withSuffix hoff hn hs)
      (by simp [hoff, Jbd2Tag.length_bytes hwf]) h
    refine ⟨by simpa [tagBytes] using hb', ?_, ?_⟩
    · simpa [hwf] using hwfs
    intro k t hk
    rcases k with _ | k
    · simp only [getElem?_cons_zero, Option.some_inj] at hk
      subst hk
      rw [not_not.mp hlast]
      simp
    · rw [length_cons, Nat.add_right_cancel_iff]
      exact hlasts k t (by simpa using hk)

lemma length_tagBytes (hwf : ∀ tag ∈ tags, tag.WellFormed) :
    tags.length ≤ (tagBytes tags).length := by
  induction tags with
  | nil => simp
  | cons tag tags ih =>
    have := ih fun t ht => hwf t (by simp [ht])
    simp only [tagBytes, flatMap_cons, length_append, length_cons,
      Jbd2Tag.length_bytes (hwf tag (by simp)), Jbd2Tag.encodedLen, Jbd2Tag.baseLen] at this ⊢
    omega

lemma parseTags_append (hne : tags ≠ []) (hwf : ∀ tag ∈ tags, tag.WellFormed)
    (hlast : ∀ k tag, tags[k]? = some tag → (tag.last = true ↔ k + 1 = tags.length))
    {fuel off : ℕ} (hoff : pre.length = off) (hfuel : tags.length ≤ fuel) (post : List UInt8) :
    parseTags (pre ++ tagBytes tags ++ post) fuel off = .ok tags := by
  induction tags generalizing pre fuel off with
  | nil => exact absurd rfl hne
  | cons tag tags ih =>
    rcases fuel with _ | fuel
    · simp at hfuel
    have htag : tag.WellFormed := hwf tag (by simp)
    have hpos : 8 ≤ tag.bytes.length := by
      rw [Jbd2Tag.length_bytes htag]
      simp [Jbd2Tag.encodedLen, Jbd2Tag.baseLen]
    have hbytes : pre ++ tagBytes (tag :: tags) ++ post
        = pre ++ (tag.bytes ++ (tagBytes tags ++ post)) := by
      simp [tagBytes]
    have hin : ¬ (off = (pre ++ (tag.bytes ++ (tagBytes tags ++ post))).length
        ∨ (pre ++ (tag.bytes ++ (tagBytes tags ++ post))).length < off) := by
      simp
      omega
    have hdrop : (pre ++ (tag.bytes ++ (tagBytes tags ++ post))).drop off
        = tag.bytes ++ (tagBytes tags ++ post) := by
      rw [← hoff, drop_left]
    rw [hbytes, parseTags, if_neg hin, hdrop, Jbd2Tag.parseLegacy_append htag]
    have hl := hlast 0 tag rfl
    rcases htags : tags with _ | ⟨t, ts⟩
    · simp [hl.mpr (by simp [htags])]
    have hnot : tag.last = false := by
      rw [Bool.eq_false_iff, Ne, hl, htags]
      simp
    have hrest := @ih (pre ++ tag.bytes) (by simp [htags])
      (fun t ht => hwf t (by simp [ht]))
      (fun k t hk => by
        rw [hlast (k + 1) t (by simpa using hk), length_cons, Nat.add_right_cancel_iff])
      fuel (off + tag.encodedLen) (by rw [length_append, hoff, Jbd2Tag.length_bytes htag])
        (by simp at hfuel; omega)
    rw [← htags]
    simp only [append_assoc] at hrest
    simp [hnot, hrest]

lemma encodeLegacy_ok {d : Jbd2Descriptor} {b₀ : Buf n} (hn : 12 ≤ n)
    (h : d.encodeLegacy b₀ = .ok b) : parseLegacy b.bytes = .ok d := by
  rw [encodeLegacy, check_eq_ok] at h
  obtain ⟨hd, h⟩ := h
  rw [not_or, not_not] at hd
  obtain ⟨b₁, hb₁, hf₁⟩ := d.header.encode_zero hn
  rw [hb₁, ok_bind] at h
  obtain ⟨hf, hwf, hlast⟩ := encodeTags_ok hf₁ (by simp [encodedLen]) h
  have hlen := hf.length_le
  have hheader : parse b.bytes = .ok d.header := by
    rw [hf, append_assoc, parse_append]
  have hfuel : d.tags.length ≤ b.bytes.length := by
    have hcount := length_tagBytes hwf
    rw [b.length_eq]
    simp at hlen
    omega
  have htags : parseTags b.bytes n encodedLen = .ok d.tags := by
    rw [b.length_eq] at hfuel
    rw [hf]
    exact parseTags_append hd.2 hwf hlast (by simp [encodedLen]) hfuel _
  simp [parseLegacy, hheader, htags, hd.1]

end Jbd2Descriptor

/-! ### Commit blocks -/

namespace Jbd2Commit

def bytes (c : Jbd2Commit) : List UInt8 :=
  c.header.bytes ++ [c.checksumType, c.checksumSize] ++ List.replicate 2 0 ++ u32Bytes c.checksums
    ++ be 8 c.seconds.toNat ++ be 4 c.nanoseconds.toNat

lemma parse_append (c : Jbd2Commit) (rest : List UInt8)
    (htype : c.header.blockType = JBD2_BLOCK_COMMIT) (hsums : c.checksums.length = 8) :
    parse (c.bytes ++ rest) = .ok c := by
  have hheader : Jbd2Header.parse (c.bytes ++ rest) = .ok c.header := by
    simp [bytes, Jbd2Header.parse_append]
  have hreq : requireLen (c.bytes ++ rest) encodedLen = .ok () :=
    requireLen_of_le (by simp [bytes, hsums, encodedLen]; omega)
  have h16 : readU32s (c.bytes ++ rest) 16 8 = .ok c.checksums := by
    have := readU32s_append (c.header.bytes ++ [c.checksumType, c.checksumSize]
        ++ replicate 2 0) (be 8 c.seconds.toNat ++ be 4 c.nanoseconds.toNat ++ rest)
      c.checksums (by simp : _ = 16)
    rw [hsums] at this
    simpa only [bytes, append_assoc] using this
  have h48 : readU64 (c.bytes ++ rest) 48 = .ok c.seconds := by
    have := readU64_append (c.header.bytes ++ [c.checksumType, c.checksumSize]
        ++ replicate 2 0 ++ u32Bytes c.checksums) (be 4 c.nanoseconds.toNat ++ rest)
      c.seconds (by simp [hsums] : _ = 48)
    simpa only [bytes, append_assoc] using this
  have h56 : readU32 (c.bytes ++ rest) 56 = .ok c.nanoseconds :=
    readU32_append _ _ c.nanoseconds (by simp [hsums])
  have h12 : (c.bytes ++ rest).getD 12 0 = c.checksumType := by
    simp [bytes, getD]
  have h13 : (c.bytes ++ rest).getD 13 0 = c.checksumSize := by
    simp [bytes, getD, getElem?_append_right]
  rw [parse, hreq, hheader, h16, h48, h56, h12, h13]
  simp [htype]

lemma encode_ok {c : Jbd2Commit} {b₀ b : Buf n} (hsums : c.checksums.length = 8)
    (h : c.encode b₀ = .ok b) : parse b.bytes = .ok c := by
  rw [encode, check_eq_ok, bind_eq_ok] at h
  obtain ⟨htype, _, hreq, h⟩ := h
  have hn : 60 ≤ n := b₀.length_eq ▸ le_of_requireLen hreq
  obtain ⟨b₁, hw₁, hb₁⟩ := c.header.encode_zero (n := n) (by omega)
  obtain ⟨b₂, hw₂, hb₂⟩ := filled_writeBe hb₁ 12 (by simp) 1 c.checksumType.toNat (by omega)
  obtain ⟨b₃, hw₃, hb₃⟩ := filled_writeBe hb₂ 13 (by simp) 1 c.checksumSize.toNat (by omega)
  obtain ⟨b₄, hw₄, hb₄⟩ := filled_writeU32s (hb₃.extend (k := 2) (by simp; omega)) 16
    (by simp) c.checksums (by omega)
  obtain ⟨b₅, hw₅, hb₅⟩ := filled_writeBe hb₄ 48 (by simp [hsums]) 8 c.seconds.toNat (by omega)
  obtain ⟨b₆, hw₆, hb₆⟩ :=
    filled_writeBe hb₅ 56 (by simp [hsums]) 4 c.nanoseconds.toNat (by omega)
  have hbytes : c.header.bytes ++ be 1 c.checksumType.toNat ++ be 1 c.checksumSize.toNat
      ++ replicate 2 0 ++ u32Bytes c.checksums ++ be 8 c.seconds.toNat
      ++ be 4 c.nanoseconds.toNat = c.bytes := by
    simp [bytes, be]
  rw [hbytes] at hb₆
  simp only [hw₁, hw₂, hw₃, hw₄, writeU64, hw₅, writeU32, hw₆, ok_bind, Except.ok.injEq] at h
  subst h
  rw [hb₆, parse_append c _ (not_not.mp htype) hsums]

end Jbd2Commit

/-! ### Revoke blocks -/

namespace Jbd2Revoke

lemma headerLen_eq : headerLen = 16 := rfl

lemma maxBlocksPerPage_eq : MAX_BLOCKS_PER_PAGE = 1020 := rfl

def bytes (r : Jbd2Revoke) : List UInt8 :=
  r.header.bytes ++ be 4 (UInt32.ofNat (headerLen + r.blocks.length * 4)).toNat ++ u32Bytes r.blocks

variable {r : Jbd2Revoke}

lemma toNat_count (hmax : r.blocks.length ≤ MAX_BLOCKS_PER_PAGE) :
    (UInt32.ofNat (headerLen + r.blocks.length * 4)).toNat = headerLen + r.blocks.length * 4 := by
  rw [maxBlocksPerPage_eq] at hmax
  rw [UInt32.toNat_ofNat', Nat.mod_eq_of_lt]
  rw [headerLen_eq]
  omega

lemma parse_append (r : Jbd2Revoke) (rest : List UInt8)
    (htype : r.header.blockType = JBD2_BLOCK_REVOKE)
    (hmax : r.blocks.length ≤ MAX_BLOCKS_PER_PAGE) : parse (r.bytes ++ rest) = .ok r := by
  have hcount := toNat_count hmax
  have hlen : (r.bytes ++ rest).length = headerLen + r.blocks.length * 4 + rest.length := by
    simp [bytes, headerLen_eq]
    omega
  have hreq : requireLen (r.bytes ++ rest) headerLen = .ok () :=
    requireLen_of_le (by rw [hlen]; omega)
  have hheader : Jbd2Header.parse (r.bytes ++ rest) = .ok r.header := by
    simp [bytes, Jbd2Header.parse_append]
  have h12 : readU32 (r.bytes ++ rest) Jbd2Header.encodedLen
      = .ok (UInt32.ofNat (headerLen + r.blocks.length * 4)) := by
    have := readU32_append r.header.bytes (u32Bytes r.blocks ++ rest)
      (UInt32.ofNat (headerLen + r.blocks.length * 4))
      (by simp [encodedLen] : _ = encodedLen)
    simpa only [bytes, append_assoc] using this
  have h16 : readU32s (r.bytes ++ rest) headerLen r.blocks.length = .ok r.blocks :=
    readU32s_append _ _ r.blocks (by simp [headerLen_eq])
  have hblocks : (headerLen + r.blocks.length * 4 - headerLen) / 4 = r.blocks.length := by omega
  have hin : ¬ (headerLen + r.blocks.length * 4 < headerLen
      ∨ headerLen + r.blocks.length * 4 + rest.length < headerLen + r.blocks.length * 4) := by omega
  have hmod : ¬ (headerLen + r.blocks.length * 4 - headerLen) % 4 ≠ 0 := by omega
  rw [parse, hreq, ok_bind, hheader, ok_bind, if_neg (by simp [htype]), h12, ok_bind, hcount, hlen,
    if_neg hin, if_neg hmod, hblocks, h16]
  rfl

lemma encode_ok {b₀ b : Buf n} (h : r.encode b₀ = .ok b) : parse b.bytes = .ok r := by
  rw [encode, check_eq_ok, check_eq_ok, bind_eq_ok] at h
  obtain ⟨htype, hmax, _, hreq, h⟩ := h
  have hn : headerLen + r.blocks.length * 4 ≤ n := b₀.length_eq ▸ le_of_requireLen hreq
  rw [headerLen_eq] at hn
  obtain ⟨b₁, hw₁, hb₁⟩ := r.header.encode_zero (n := n) (by omega)
  obtain ⟨b₂, hw₂, hb₂⟩ := filled_writeBe hb₁ encodedLen
    (by simp [encodedLen]) 4 (UInt32.ofNat (headerLen + r.blocks.length * 4)).toNat
    (by simp [encodedLen]; omega)
  obtain ⟨b₃, hw₃, hb₃⟩ := filled_writeU32s hb₂ headerLen (by simp [headerLen_eq]) r.blocks
    (by rw [headerLen_eq]; omega)
  simp only [hw₁, writeU32, hw₂, hw₃, ok_bind, Except.ok.injEq] at h
  subst h
  rw [hb₃]
  exact parse_append r _ (not_not.mp htype) (by omega)

end Jbd2Revoke

end TxKernel.Ext4
