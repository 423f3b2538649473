import Mathlib.Data.List.Forall2
import Mathlib.Data.List.Nodup
import TxKernel.Ext4.Journal.Ring
import TxKernel.Ext4.Journal.Scan

/-!
From an encoded transaction to a record that the replay scan finds: one whose pages are stored where
the ring put them is held in the log, and replay writes what was to be journaled.
-/

namespace TxKernel.Ext4

open Bytes JournalGeometry Jbd2TransactionImage List JournalRing BlockImage Jbd2Header Function

/-! ### Escaping -/

lemma unescape_escape (page : Page4K) {tag : Jbd2Tag} (h : tag.escaped = decide (Escaped page)) :
    unescape tag (escape page) = page := by
  by_cases hp : Escaped page
  · rw [unescape, h, decide_eq_true hp, if_pos rfl, escape, if_pos hp]
    refine Buf.ext ?_
    have hdrop : ((Buf.zero 4).bytes ++ page.bytes.drop 4).drop 4 = page.bytes.drop 4 :=
      drop_left' (Buf.zero 4).length_eq
    change be 4 JBD2_MAGIC.toNat ++ ((Buf.zero 4).bytes ++ page.bytes.drop 4).drop 4 = page.bytes
    rw [hdrop, ← hp, take_append_drop]
  · rw [unescape, h, decide_eq_false hp, if_neg (by simp), escape, if_neg hp]

/-! ### Revoked blocks -/

lemma mem_dedupAdjacent (l : List UInt32) (b : UInt32) : b ∈ dedupAdjacent l ↔ b ∈ l := by
  induction l using dedupAdjacent.induct with
  | case1 => rfl
  | case2 a => rfl
  | case3 a l ih =>
    rw [dedupAdjacent, if_pos rfl, ih]
    simp
  | case4 a c l hne ih =>
    rw [dedupAdjacent, if_neg hne, mem_cons, ih]
    simp

variable {n : ℕ}

lemma mem_flatten_chunks (hn : 0 < n) (l : List UInt32) (b : UInt32) :
    b ∈ (chunks n l).flatten ↔ b ∈ l := by
  simp only [chunks, mem_flatten, mem_map, mem_range, exists_exists_and_eq_and]
  constructor
  · rintro ⟨i, -, hb⟩
    exact mem_of_mem_drop (mem_of_mem_take hb)
  intro hb
  obtain ⟨j, hj, rfl⟩ := getElem_of_mem hb
  -- the element at `j` is in the piece `j / n`, at `j % n`
  have hdiv : j / n * n + j % n = j := by rw [Nat.mul_comm, Nat.div_add_mod]
  have hmod := Nat.mod_lt j hn
  refine ⟨j / n, ?_, ?_⟩
  · rw [Nat.div_lt_iff_lt_mul hn]
    have := Nat.div_add_mod (l.length + (n - 1)) n
    have := Nat.mod_lt (l.length + (n - 1)) hn
    rw [Nat.mul_comm]
    omega
  · refine mem_of_getElem? (i := j % n) ?_
    rw [getElem?_take, if_pos hmod, getElem?_drop, hdiv, getElem?_eq_getElem hj]

/-! ### Encoded transactions -/

namespace Jbd2TransactionImage

variable {uuid : Uuid} {updates : List Jbd2MetadataUpdate} {revoked : List UInt32}
  {sequence : UInt32} {img : Jbd2TransactionImage}

@[simp] lemma length_tagsOf (isFirst : Bool) :
    (tagsOf uuid isFirst updates).length = updates.length := by
  induction updates generalizing isFirst with
  | nil => rfl
  | cons u us ih => simp [tagsOf, ih]

lemma mem_tagsOf {isFirst : Bool} {tag : Jbd2Tag} (h : tag ∈ tagsOf uuid isFirst updates) :
    tag.deleted = false ∧ ∀ id, tag.uuid = some id → id = uuid := by
  induction updates generalizing isFirst with
  | nil => simp [tagsOf] at h
  | cons u us ih =>
    rw [tagsOf, mem_cons] at h
    rcases h with rfl | h
    · refine ⟨rfl, fun id hid => ?_⟩
      cases isFirst <;> simp [tagOf, Jbd2Tag.new] at hid
      exact hid.symm
    · exact ih h

def recordOf (uuid : Uuid) (updates : List Jbd2MetadataUpdate) (revoked : List UInt32) :
    LogRecord where
  tags := tagsOf uuid true updates
  payloads := updates.map fun u => escape u.bytes
  revokes := chunks Jbd2Revoke.MAX_BLOCKS_PER_PAGE (revokedBlocks revoked)
  lengths := by simp

lemma length_revokes_recordOf : (recordOf uuid updates revoked).revokes.length
    = Jbd2Revoke.pageCount (revokedBlocks revoked).length := by
  simp [recordOf, chunks, Jbd2Revoke.pageCount]

def homeWrites (updates : List Jbd2MetadataUpdate) (revoked : List UInt32) : List (ℕ × Page4K) :=
  (updates.filter fun u => decide (u.homeBlock ∉ revoked)).map fun u => (u.homeBlock.toNat, u.bytes)

lemma nodup_homeWrites (h : (updates.map (·.homeBlock)).Nodup) :
    ((homeWrites updates revoked).map Prod.fst).Nodup := by
  have hmap : (homeWrites updates revoked).map Prod.fst
      = ((updates.filter fun u => decide (u.homeBlock ∉ revoked)).map (·.homeBlock)).map
        UInt32.toNat := by
    simp [homeWrites]
  rw [hmap]
  exact List.Nodup.map (fun a b hab => UInt32.toNat_inj.mp hab) (h.sublist (filter_sublist.map _))

lemma mem_revoked_recordOf (b : UInt32) :
    b ∈ (recordOf uuid updates revoked).revoked ↔ b ∈ revoked := by
  rw [LogRecord.revoked, recordOf, mem_flatten_chunks (by decide), revokedBlocks,
    mem_dedupAdjacent, mem_mergeSort]

lemma writes_recordOf : (recordOf uuid updates revoked).writes = homeWrites updates revoked := by
  simp only [LogRecord.writes, mem_revoked_recordOf]
  change (((tagsOf uuid true updates).zip (updates.map fun u => escape u.bytes)).filter _).map _ = _
  generalize true = isFirst
  induction updates generalizing isFirst with
  | nil => rfl
  | cons u us ih =>
    have hu : unescape (tagOf uuid isFirst us.isEmpty u) (escape u.bytes) = u.bytes :=
      unescape_escape u.bytes rfl
    have htarget : (tagOf uuid isFirst us.isEmpty u).targetBlock = u.homeBlock := rfl
    rw [tagsOf, map_cons, zip_cons_cons, homeWrites, filter_cons, filter_cons, htarget]
    by_cases hb : u.homeBlock ∈ revoked
    · rw [if_neg (by simpa using hb), if_neg (by simpa using hb)]
      exact ih false
    rw [if_pos (by simpa using hb), if_pos (by simpa using hb), map_cons, map_cons, hu,
      htarget]
    congr 1
    exact ih false

def commitOf (sequence : UInt32) : Jbd2Commit :=
  { header := Jbd2Header.commit sequence, checksumType := 0, checksumSize := 0
    checksums := List.replicate 8 0, seconds := 0, nanoseconds := 0 }

lemma encodeRevokes_ok {bs : List (List UInt32)} {pages : List Page4K}
    (h : encodeRevokes sequence bs = .ok pages) :
    List.Forall₂ (fun page blocks => Jbd2Revoke.parse page.bytes
      = .ok ⟨revoke sequence, blocks⟩) pages bs := by
  induction bs generalizing pages with
  | nil => cases h; exact .nil
  | cons b bs ih =>
    rw [encodeRevokes, bind_eq_ok] at h
    obtain ⟨page, hpage, h⟩ := h
    rw [bind_eq_ok] at h
    obtain ⟨rest, hrest, h⟩ := h
    cases h
    exact .cons (Jbd2Revoke.encode_ok hpage) (ih hrest)

/-- What the pages of an encoded transaction parse to. -/
structure Encodes (img : Jbd2TransactionImage) (sequence : UInt32) (r : LogRecord) : Prop where
  nonempty : r.tags ≠ []
  descriptor : Jbd2Descriptor.parseLegacy img.descriptor.bytes
    = .ok ⟨Jbd2Header.descriptor sequence, r.tags⟩
  metadata : img.metadataBlocks = r.payloads
  revokes : List.Forall₂ (fun page blocks => Jbd2Revoke.parse page.bytes
      = .ok ⟨Jbd2Header.revoke sequence, blocks⟩) img.revokes r.revokes
  commit : Jbd2Commit.parse img.commit.bytes = .ok (commitOf sequence)

lemma encode_ok (h : encodeLegacyWithRevokes sequence uuid updates revoked = .ok img) :
    img.Encodes sequence (recordOf uuid updates revoked) := by
  rw [encodeLegacyWithRevokes, check_eq_ok] at h
  obtain ⟨hne, h⟩ := h
  simp only [bind_eq_ok] at h
  obtain ⟨d, hd, rs, hrs, c, hc, h⟩ := h
  cases h
  refine ⟨?_, Jbd2Descriptor.encodeLegacy_ok (by decide) hd, rfl, encodeRevokes_ok hrs,
    Jbd2Commit.encode_ok rfl hc⟩
  intro hnil
  have := congrArg length hnil
  simp [recordOf] at this
  exact hne this

end Jbd2TransactionImage

/-! ### Stored transactions -/

/-- The pages of a transaction are stored at the blocks of a layout. -/
structure JournalRecordLayout.Stored (l : JournalRecordLayout) (image : BlockImage)
    (img : Jbd2TransactionImage) : Prop where
  descriptor : image.block l.descriptor.block = img.descriptor
  metadata : ∀ (i : ℕ) (lba : LbaRange) (page : Page4K), l.metadata[i]? = some lba →
    img.metadataBlocks[i]? = some page → image.block lba.block = page
  revokes : ∀ (i : ℕ) (lba : LbaRange) (page : Page4K), l.revokes[i]? = some lba →
    img.revokes[i]? = some page → image.block lba.block = page
  commit : image.block l.commit.block = img.commit

variable {ring ring' : JournalRing} {reservation : JournalRingReservation} {g : JournalGeometry}
  {image : BlockImage} {img : Jbd2TransactionImage} {r : LogRecord} {sequence : UInt32} {m : ℕ}

def Jbd2TransactionImage.pages (img : Jbd2TransactionImage) : List Page4K :=
  img.descriptor :: (img.metadataBlocks ++ (img.revokes ++ [img.commit]))

lemma stored_of_pages (h : ring.Sound) (hres : ring.Reserved m n reservation ring')
    (hm : img.metadataBlocks.length = m) (hn : img.revokes.length = n)
    (hpages : ∀ i p, img.pages[i]? = some p →
      image.block (ring.blocks.getD (ring.startOf (m + n + 2) + i) 0) = p) :
    reservation.layout.records.Stored image img := by
  rw [hres.records]
  generalize ring.startOf (m + n + 2) = c at *
  refine ⟨?_, ?_, ?_, ?_⟩
  · rw [lba_block h]
    exact hpages 0 _ rfl
  · intro i lba page hl hp
    have hi : i < img.metadataBlocks.length := (List.getElem?_eq_some_iff.mp hp).1
    simp only [List.getElem?_map, List.getElem?_range (show i < m by omega), Option.map_some,
      Option.some_inj] at hl
    rw [← hl, lba_block h, show c + 1 + i = c + (i + 1) by omega]
    refine hpages (i + 1) page ?_
    rw [pages, getElem?_cons_succ, getElem?_append_left hi, hp]
  · intro i lba page hl hp
    have hi : i < img.revokes.length := (List.getElem?_eq_some_iff.mp hp).1
    simp only [List.getElem?_map, List.getElem?_range (show i < n by omega), Option.map_some,
      Option.some_inj] at hl
    rw [← hl, lba_block h, show c + 1 + m + i = c + (m + i + 1) by omega]
    refine hpages (m + i + 1) page ?_
    rw [pages, getElem?_cons_succ, getElem?_append_right (by omega), hm,
      Nat.add_sub_cancel_left, getElem?_append_left hi, hp]
  · rw [lba_block h, show c + 1 + m + n = c + (m + n + 1) by omega]
    refine hpages (m + n + 1) _ ?_
    rw [pages, getElem?_cons_succ, getElem?_append_right (by omega), hm,
      Nat.add_sub_cancel_left, getElem?_append_right (by omega), hn, Nat.sub_self]
    rfl

lemma logPage_of_stored (image : BlockImage) (h : ring.Sound) (hg : g.blocks = ring.blocks)
    {c i : ℕ} (hi : c + i < ring.blocks.length) (hn : n = c + i) :
    g.logPage image (g.advance^[i] c) = image.block (ring.lba n).block := by
  rw [iterate_advance_of_le i (by rwa [hg]), lba_block h, logPage, hg, hn]

/-- A transaction that is stored where the ring put it is held in the log. -/
theorem held_of_stored (h : ring.Sound)
    (hres : ring.Reserved r.tags.length r.revokes.length reservation ring')
    (hstored : reservation.layout.records.Stored image img) (henc : img.Encodes sequence r)
    (hg : g.blocks = ring.blocks)
    (htags : validateTags ⟨descriptor sequence, r.tags⟩ g = .ok ()) :
    r.Held g image (ring.startOf (r.tags.length + r.revokes.length + 2)) sequence := by
  obtain ⟨hge, hle⟩ := startOf_spec h hres.fits
  rw [hres.records] at hstored
  generalize ring.startOf (r.tags.length + r.revokes.length + 2) = c at *
  obtain ⟨hsd, hsm, hsr, hsc⟩ := hstored
  obtain ⟨hlen, hrevokes⟩ := forall₂_iff_zip.mp henc.revokes
  refine ⟨?_, htags, ?_, ?_, commitOf sequence, ?_, rfl, by simp [validateCommitChecksum, commitOf]⟩
  · have := logPage_of_stored image (c := c) (i := 0) h hg (by omega) rfl
    rw [iterate_zero, id, Nat.add_zero] at this
    rw [this, hsd, henc.descriptor]
  · intro i p hp
    have hi : i < r.tags.length := r.lengths ▸ (List.getElem?_eq_some_iff.mp hp).1
    rw [logPage_of_stored image h hg (n := c + 1 + i) (by omega) (by omega)]
    exact hsm i _ p (by simp [hi]) (by rw [henc.metadata, hp])
  · intro i blocks hb
    have hi : i < r.revokes.length := (List.getElem?_eq_some_iff.mp hb).1
    obtain ⟨page, hpage⟩ : ∃ page, img.revokes[i]? = some page :=
      ⟨_, List.getElem?_eq_getElem (hlen ▸ hi)⟩
    rw [logPage_of_stored image h hg (n := c + 1 + r.tags.length + i) (by omega) (by omega),
      hsr i _ page (by simp [hi]) hpage]
    exact hrevokes (mem_of_getElem? (getElem?_zip_eq_some.mpr ⟨hpage, hb⟩))
  · rw [logPage_of_stored image h hg (n := c + 1 + r.tags.length + r.revokes.length) (by omega)
      (by omega), hsc, henc.commit]

/-! ### The activated superblock -/

def JournalRing.activeGeometry (ring : JournalRing) (c : ℕ) (page : Page4K) : JournalGeometry where
  superblock := { ring.superblock with sequence := ring.state.sequence, start := UInt32.ofNat c }
  blocks := ring.blocks
  superblockPage := some page

lemma valid_activeGeometry (h : ring.Sound) (c : ℕ) (page : Page4K) :
    (ring.activeGeometry c page).Valid := by
  exact ⟨h.maxLen, h.first.symm ▸ h.first_pos,
    h.first.symm ▸ lt_of_le_of_lt h.cursor_ge h.cursor_lt⟩

lemma journalGeometry_of_activate (h : ring.Sound) (hres : ring.Reserved m n reservation ring')
    {state : JournalSuperblockState} (hstate : reservation.layout.superblockState = some state)
    (hactive : image.block state.lba.block = state.activate) : journalGeometry image ring.blocks
      = .ok (ring.activeGeometry (ring.startOf (m + n + 2)) state.activate) := by
  have hsb := hres.superblockState
  rw [hstate, superblockState] at hsb
  rcases hpage : ring.superblockPage with _ | page
  · simp [hpage] at hsb
  rcases hlba : ring.superblockLba with _ | lba
  · simp [hpage, hlba] at hsb
  simp only [hpage, hlba] at hsb
  split at hsb
  · rename_i activate clean hact hclean
    simp only [Except.ok.injEq, Option.some_inj] at hsb
    subst hsb
    have hparse := Jbd2Superblock.writeState_ok hact
    have hhead : ring.blocks.head? = some (ring.blocks.getD 0 0) := by
      have := h.cursor_lt
      rcases hb : ring.blocks with _ | ⟨b, bs⟩
      · simp [hb] at this
      · rfl
    rw [h.superblockLba lba hlba, lba_block h] at hactive
    rw [journalGeometry, hhead]
    simp only [readBlock, hactive, hparse, ok_bind, h.maxLen, lt_irrefl, if_false,
      pure_eq_ok, take_length, activeGeometry]
  · cases hsb

theorem replayJournal_active (h : ring.Sound)
    (hres : ring.Reserved r.tags.length r.revokes.length reservation ring') {page : Page4K}
    (hg : g = ring.activeGeometry (ring.startOf (r.tags.length + r.revokes.length + 2)) page)
    (hheld : r.Held g image (ring.startOf (r.tags.length + r.revokes.length + 2))
      ring.state.sequence)
    (hnext : NoDescriptor g (r.replay image) (if reservation.end_ = ring.blocks.length then
      ring.first else reservation.end_) (nextSequence ring.state.sequence)) :
    ∃ report, replayJournal image g = .ok (report, r.replay image)
      ∧ report.nextSequence = nextSequence ring.state.sequence := by
  obtain ⟨hge, hle⟩ := startOf_spec h hres.fits
  have hend := hres.end_
  have htotal : totalBlocks [r] = r.tags.length + r.revokes.length + 2 := by
    simp only [totalBlocks, map_cons, map_nil, sum_cons, sum_nil, LogRecord.blocks]
    omega
  have hfits := hres.fits
  generalize ring.startOf (r.tags.length + r.revokes.length + 2) = c at *
  have hmax := ring.superblock.maxLen.toNat_lt
  rw [h.maxLen] at hmax
  have hstart : g.superblock.start.toNat = c :=
    hg ▸ UInt32.toNat_ofNat_of_lt' (by omega : c < 2 ^ 32)
  have hblocks : g.blocks = ring.blocks := hg ▸ rfl
  have hfirst : g.superblock.first.toNat = ring.first := hg ▸ h.first
  have hseq : g.superblock.sequence = ring.state.sequence := hg ▸ rfl
  obtain ⟨report, hreplay, -, hreport⟩ := replayJournal_heldAll image (g := g)
    (hg ▸ valid_activeGeometry h c page) (by omega) (by rw [hstart, hblocks]; omega) [r]
    (by rw [hstart, hseq]; exact ⟨hheld, trivial⟩) (by rw [htotal, hblocks, hfirst]; exact hfits)
    (by
      intro _
      rw [htotal, hstart, hseq, iterate_advance_of_end (by omega) (by rw [hblocks]; omega), hfirst,
        hblocks, ← hend]
      exact hnext)
  refine ⟨report, hreplay, ?_⟩
  rw [hreport, hseq]
  rfl

lemma validateTags_recordOf {uuid : Uuid} {updates : List Jbd2MetadataUpdate}
    {revoked : List UInt32} (hg : g.superblock.uuid = uuid) :
    validateTags ⟨descriptor sequence, (recordOf uuid updates revoked).tags⟩ g = .ok () := by
  rw [validateTags, if_neg]
  simp only [any_eq_true, Bool.or_eq_true, not_exists, not_and, not_or]
  intro tag htag
  obtain ⟨hdel, hid⟩ := mem_tagsOf htag
  refine ⟨by simp [hdel], ?_⟩
  rcases hu : tag.uuid with _ | id
  · simp
  · simp [hid id hu, hg]

/-- **Round trip.** If the pages of a transaction are stored where the ring reserved blocks for it
and the superblock holds the activate page, replay writes exactly the journaled pages to the homes
that are not revoked. The block behind the record must not hold a descriptor of the next
sequence. -/
theorem replayJournal_stored {updates : List Jbd2MetadataUpdate} {revoked : List UInt32}
    {state : JournalSuperblockState} (h : ring.Sound) (hnodup : (updates.map (·.homeBlock)).Nodup)
    (hres : ring.reserveWithRevokePages updates.length img.revokes.length =
      .ok (reservation, ring'))
    (henc : encodeLegacyWithRevokes reservation.layout.sequence reservation.layout.journalUuid
      updates revoked = .ok img)
    (hstored : reservation.layout.records.Stored image img)
    (hstate : reservation.layout.superblockState = some state)
    (hactive : image.block state.lba.block = state.activate)
    (hnext : ∀ header, Jbd2Header.parse ((image.writeAll (homeWrites updates revoked)).block
        (ring.blocks.getD (if reservation.end_ = ring.blocks.length then ring.first
          else reservation.end_) 0)).bytes = .ok header →
      header.blockType = JBD2_BLOCK_DESCRIPTOR →
      header.sequence ≠ nextSequence reservation.layout.sequence) :
    ∃ g report image', journalGeometry image ring.blocks = .ok g
      ∧ replayJournal image g = .ok (report, image')
      ∧ image'.ops = image.ops ++ (homeWrites updates revoked).map (fun w => .write w.1 w.2)
          ++ [.barrier]
      ∧ (∀ u ∈ updates, u.homeBlock ∉ revoked → image'.block u.homeBlock.toNat = u.bytes)
      ∧ (∀ b, (∀ u ∈ updates, u.homeBlock ∉ revoked → b ≠ u.homeBlock.toNat) →
          image'.block b = image.block b)
      ∧ report.nextSequence = nextSequence reservation.layout.sequence := by
  have hR := reserve_ok hres
  have hE := encode_ok henc
  rw [hR.uuid, hR.sequence] at hE
  rw [hR.sequence] at hnext
  generalize hr : recordOf ring.journalUuid updates revoked = r at hE
  have hlen : r.tags.length = updates.length := by simp [← hr, recordOf]
  have hrev : r.revokes.length = img.revokes.length := hE.revokes.length_eq.symm
  have hwrites : r.writes = homeWrites updates revoked := hr ▸ writes_recordOf
  rw [← hlen, ← hrev] at hR
  have hgeo := journalGeometry_of_activate h hR hstate hactive
  have htags : validateTags ⟨descriptor ring.state.sequence, r.tags⟩
      (ring.activeGeometry (ring.startOf (r.tags.length + r.revokes.length + 2)) state.activate)
        = .ok () := hr ▸ validateTags_recordOf h.uuid.symm
  have hheld := held_of_stored h hR hstored hE rfl htags
  obtain ⟨report, hreplay, hseq⟩ := replayJournal_active h hR rfl hheld (by
    rw [NoDescriptor, LogRecord.replay, hwrites]
    exact hnext)
  refine ⟨_, report, _, hgeo, hreplay, ?_, ?_, ?_, hseq.trans (by rw [hR.sequence])⟩
  · rw [LogRecord.replay, hwrites, barrier]
    simp only [writeAll_ops]
  · intro u hu hrevoked
    rw [LogRecord.replay, hwrites, barrier_block]
    exact writeAll_block_of_mem _ (mem_map.mpr ⟨u, by simp [hu, hrevoked], rfl⟩)
      (nodup_homeWrites hnodup)
  intro b hb
  rw [LogRecord.replay, hwrites, barrier_block]
  refine writeAll_block_of_notMem _ ?_
  simp only [homeWrites, map_map, mem_map, mem_filter, decide_eq_true_eq,
    comp_apply, not_exists, not_and, and_imp]
  exact fun u hu hn h => hb u hu hn h.symm

def smallSuperblockPage : Page4K :=
  ⟨be 4 JBD2_MAGIC.toNat ++ be 4 4 ++ be 4 0 ++ be 4 4096 ++ be 4 8 ++ be 4 1 ++ be 4 1
    ++ List.replicate 4068 0, by
      simp only [length_append, length_be, length_replicate]⟩

def smallRing : JournalRing where
  device := 0
  sectorsPerBlock := 8
  journalUuid := Buf.zero 16
  blocks := [100, 101, 102, 103, 104, 105, 106, 107]
  first := 1
  superblock := ⟨4, 4096, 8, 1, 1, 0, Buf.zero 16⟩
  superblockPage := some smallSuperblockPage
  superblockLba := some ⟨800, 8⟩
  state := ⟨1, 1, 1, none⟩

lemma sound_smallRing : smallRing.Sound :=
  ⟨by decide, rfl, rfl, by decide, le_refl _, by decide, rfl, by simp [smallRing],
    by simp [smallRing, lba]⟩

def smallUpdates : List Jbd2MetadataUpdate := [⟨7, smallSuperblockPage⟩, ⟨9, Buf.zero 4096⟩]

/-- Two updates, the first of a page that begins with the journal's magic, the second revoked. -/
theorem replayJournal_stored_small : ∃ image g report image',
    journalGeometry image smallRing.blocks = .ok g
      ∧ replayJournal image g = .ok (report, image')
      ∧ image'.block 7 = smallSuperblockPage ∧ image'.block 9 = image.block 9
      ∧ report.nextSequence = 2 := by
  obtain ⟨img, henc⟩ := exists_ok (show (encodeLegacyWithRevokes smallRing.state.sequence
    smallRing.journalUuid smallUpdates [9]).isOk = true by decide +kernel)
  obtain ⟨⟨reservation, ring'⟩, hres⟩ := exists_ok
    (show (smallRing.reserveWithRevokePages smallUpdates.length 1).isOk = true by decide +kernel)
  have hR := reserve_ok hres
  have hE := encode_ok henc
  obtain ⟨state, hstate, hlba⟩ : ∃ state, reservation.layout.superblockState = some state
      ∧ state.lba = ⟨800, 8⟩ := by
    have hsb := hR.superblockState
    simp only [superblockState, smallRing] at hsb
    split at hsb
    · exact ⟨_, (Except.ok.inj hsb).symm, rfl⟩
    · cases hsb
  have hrev : img.revokes.length = 1 := by
    rw [hE.revokes.length_eq, length_revokes_recordOf]
    simp [revokedBlocks, dedupAdjacent, Jbd2Revoke.pageCount, Jbd2Revoke.maxBlocksPerPage_eq]
  have hmeta : img.metadataBlocks.length = 2 := by rw [hE.metadata]; rfl
  have hstart : smallRing.startOf (2 + 1 + 2) = 1 := by decide
  have hend : reservation.end_ = 6 := hR.end_
  let image : BlockImage :=
    ⟨fun b => (state.activate :: img.pages).getD (b - 100) (Buf.zero 4096), []⟩
  have hstored : reservation.layout.records.Stored image img := by
    refine stored_of_pages sound_smallRing hR hmeta hrev fun i p hp => ?_
    have hi : i < 5 := by simpa [pages, hmeta, hrev] using (List.getElem?_eq_some_iff.mp hp).1
    show image.block (smallRing.blocks.getD (smallRing.startOf (2 + 1 + 2) + i) 0) = p
    rw [hstart]
    obtain rfl | rfl | rfl | rfl | rfl : i = 0 ∨ i = 1 ∨ i = 2 ∨ i = 3 ∨ i = 4 := by omega
    all_goals simp [image, smallRing, hp]
  have hblock : (image.writeAll (homeWrites smallUpdates [9])).block 106 = Buf.zero 4096 := by
    rw [writeAll_block_of_notMem _ (by simp [homeWrites, smallUpdates])]
    simp [image, pages, hmeta, hrev]
  have hzero : parse (Buf.zero 4096).bytes = .error .badMagic := by
    rw [parse_page, if_neg]
    decide +kernel
  rw [← hrev] at hres
  rw [← hR.sequence, ← hR.uuid] at henc
  obtain ⟨g, report, image', hgeo, hreplay, -, hhome, hother, hseq⟩ :=
    replayJournal_stored sound_smallRing (by decide) hres henc hstored hstate (by rw [hlba]; rfl)
      (by
      intro header hh
      rw [hend, show smallRing.blocks.getD (if 6 = smallRing.blocks.length then smallRing.first
        else 6) 0 = 106 from rfl, hblock, hzero] at hh
      cases hh)
  exact ⟨image, g, report, image', hgeo, hreplay,
    hhome ⟨7, smallSuperblockPage⟩ (by simp [smallUpdates]) (by decide),
    hother 9 (by simp [smallUpdates]), by rw [hseq, hR.sequence]; decide⟩

/-- **Recovery is done once**: replaying the journal that the next mount reads writes nothing. -/
theorem replay_after_recovery {image image' : BlockImage} {fileBlocks : List ℕ}
    {g : JournalGeometry} {report : JournalReplayReport}
    (hg : journalGeometry image fileBlocks = .ok g)
    (h : recoverIfRequired image true g = .ok (.replayed report, image')) :
    ∃ g', journalGeometry image' fileBlocks = .ok g' ∧
      replayJournal image' g' = .ok (⟨0, 0, max report.nextSequence 1⟩, image') := by
  simp only [recoverIfRequired, if_true, bind_eq_ok] at h
  obtain ⟨⟨replay, scanned⟩, -, _, hclean, h⟩ := h
  cases h
  simp only [cleanReplayedJournal, bind_eq_ok] at hclean
  obtain ⟨_, hvalid, hclean⟩ := hclean
  rcases fileBlocks with _ | ⟨block, rest⟩
  · cases hg
  simp only [journalGeometry, head?_cons, bind_eq_ok, check_eq_ok] at hg
  obtain ⟨sb, -, hlen, hg⟩ := hg
  cases hg
  obtain ⟨page, hpage, hclean⟩ := bind_eq_ok.mp hclean
  have hparse := Jbd2Superblock.writeState_ok hpage
  simp only [validateGeometry] at hvalid
  split at hvalid
  · cases hvalid
  rename_i hgeo
  -- a journal of two blocks or more has its superblock first
  obtain ⟨n, hn⟩ : ∃ n, sb.maxLen.toNat = n + 1 := ⟨sb.maxLen.toNat - 1, by omega⟩
  rw [hn, take_succ_cons, head?_cons] at hclean
  cases hclean
  refine ⟨⟨{ sb with sequence := max replay.nextSequence 1, start := 0 },
    take sb.maxLen.toNat (block :: rest), some page⟩, ?_, ?_⟩
  · simp only [journalGeometry, head?_cons, readBlock, barrier_block, writeBlock_block,
      Function.update_self, hparse, ok_bind, if_neg hlen]
    rfl
  · rw [replayJournal, validateGeometry, if_neg hgeo]
    rfl

def smallImage : Option BlockImage := do
  let img ← (encodeLegacyWithRevokes smallRing.state.sequence smallRing.journalUuid smallUpdates
    [9]).toOption
  let (reservation, _) ←
    (smallRing.reserveWithRevokePages smallUpdates.length img.revokes.length).toOption
  let state ← reservation.layout.superblockState
  return ⟨fun b => (state.activate :: img.pages).getD (b - 100) (Buf.zero 4096), []⟩

/-- Recovery replays the one transaction and writes its one block, a second replay nothing. -/
theorem replay_after_recovery_small : ∃ image g image' g', smallImage = some image
    ∧ journalGeometry image smallRing.blocks = .ok g
    ∧ recoverIfRequired image true g = .ok (.replayed ⟨1, 1, 2⟩, image')
    ∧ journalGeometry image' smallRing.blocks = .ok g'
    ∧ replayJournal image' g' = .ok (⟨0, 0, 2⟩, image') := by
  obtain ⟨image, himage, hrec⟩ := Option.map_eq_some_iff.mp
    (show smallImage.map (fun image => do
        let g ← journalGeometry image smallRing.blocks
        let r ← recoverIfRequired image true g
        return r.1) = some (.ok (.replayed ⟨1, 1, 2⟩)) by decide +kernel)
  obtain ⟨g, hg, hrec⟩ := bind_eq_ok.mp hrec
  obtain ⟨⟨report, image'⟩, hrec, hreport⟩ := bind_eq_ok.mp hrec
  obtain rfl : report = .replayed ⟨1, 1, 2⟩ := Except.ok.inj hreport
  obtain ⟨g', hg', hreplay⟩ := replay_after_recovery hg hrec
  exact ⟨image, g, image', g', himage, hg, hrec, hg', hreplay⟩

end TxKernel.Ext4
