import TxKernel.Ext4.Journal.StoredRecord

/-!
Revocation. When replay applies a transaction it knows the blocks which that transaction revokes,
but not those that later ones revoke.
-/

namespace TxKernel.Ext4

open Bytes JournalGeometry List BlockImage Jbd2Revoke Buf JournalRing

/-! ### The writes of a replay, transaction by transaction -/

def epochsFrom : List (ℕ × Page4K) → List ImageOp → List (List (ℕ × Page4K))
  | _, [] => []
  | ws, .write b p :: ops => epochsFrom (ws ++ [(b, p)]) ops
  | ws, .barrier :: ops => ws :: epochsFrom [] ops

def epochs (ops : List ImageOp) : List (List (ℕ × Page4K)) := epochsFrom [] ops

def epochOps (ws : List (ℕ × Page4K)) : List ImageOp :=
  ws.map (fun w => .write w.1 w.2) ++ [.barrier]

lemma epochsFrom_epochOps (ws ws' : List (ℕ × Page4K)) (ops : List ImageOp) :
    epochsFrom ws (epochOps ws' ++ ops) = (ws ++ ws') :: epochsFrom [] ops := by
  induction ws' generalizing ws with
  | nil => simp [epochOps, epochsFrom]
  | cons w ws' ih => simpa [epochOps, epochsFrom] using ih (ws ++ [w])

lemma epochs_flatMap (es : List (List (ℕ × Page4K))) : epochs (es.flatMap epochOps) = es := by
  induction es with
  | nil => rfl
  | cons ws es ih =>
    rw [epochs, flatMap_cons, epochsFrom_epochOps, nil_append]
    exact congrArg _ ih

lemma ops_replayAll (rs : List LogRecord) (image : BlockImage) :
    (replayAll rs image).ops = image.ops ++ (rs.map LogRecord.writes).flatMap epochOps := by
  induction rs generalizing image with
  | nil => simp [replayAll]
  | cons r rs ih =>
    have hr : (r.replay image).ops = image.ops ++ epochOps r.writes := by
      simp [LogRecord.replay, barrier, writeAll_ops, epochOps]
    have := ih (r.replay image)
    rw [hr] at this
    simpa [replayAll] using this

/-! ### Revoked blocks -/

def LogRecord.Journals (r : LogRecord) (b : UInt32) : Prop := ∃ tag ∈ r.tags, tag.targetBlock = b

/-- A transaction writes the blocks it journals and does not revoke itself. -/
lemma LogRecord.writes_to_iff (r : LogRecord) (b : UInt32) :
    (∃ w ∈ r.writes, w.1 = b.toNat) ↔ r.Journals b ∧ b ∉ r.revoked := by
  have hzip : (r.tags.zip r.payloads).map Prod.fst = r.tags :=
    map_fst_zip (by rw [r.lengths])
  constructor
  · rintro ⟨w, hw, hb⟩
    simp only [writes, mem_map, mem_filter, decide_eq_true_eq] at hw
    obtain ⟨t, ⟨ht, hnot⟩, rfl⟩ := hw
    have hb : t.1.targetBlock = b := UInt32.toNat_inj.mp hb
    exact ⟨⟨t.1, hzip ▸ mem_map_of_mem ht, hb⟩, hb ▸ hnot⟩
  · rintro ⟨⟨tag, htag, rfl⟩, hnot⟩
    rw [← hzip] at htag
    obtain ⟨t, ht, rfl⟩ := mem_map.mp htag
    exact ⟨_, mem_map.mpr ⟨t, by simpa [ht] using hnot, rfl⟩, rfl⟩

/-- Only payloads of transactions after the one that revokes a block are written to it. -/
def OnlyLaterPayloads (rs : List LogRecord) (ops : List ImageOp) : Prop :=
  ∀ (k : ℕ) (r : LogRecord), rs[k]? = some r → ∀ b ∈ r.revoked, ∀ j ≤ k,
    ∀ ws, (epochs ops)[j]? = some ws → ∀ w ∈ ws, w.1 ≠ b.toNat

/-- A block that a transaction revokes and an earlier one journaled is revoked by that one too. -/
def RevokedWhereJournaled (rs : List LogRecord) : Prop :=
  ∀ (k : ℕ) (r : LogRecord), rs[k]? = some r → ∀ b ∈ r.revoked, ∀ j < k,
    ∀ r' : LogRecord, rs[j]? = some r' → r'.Journals b → b ∈ r'.revoked

lemma onlyLaterPayloads_iff (rs : List LogRecord) (disk : ℕ → Page4K) :
    OnlyLaterPayloads rs (replayAll rs ⟨disk, []⟩).ops ↔ RevokedWhereJournaled rs := by
  have hepochs : epochs (replayAll rs ⟨disk, []⟩).ops = rs.map LogRecord.writes := by
    rw [ops_replayAll, nil_append, epochs_flatMap]
  rw [OnlyLaterPayloads, hepochs]
  constructor
  · intro h k r hr b hb j hj r' hr' hjour
    by_contra hnot
    obtain ⟨w, hw, heq⟩ := (r'.writes_to_iff b).mpr ⟨hjour, hnot⟩
    exact h k r hr b hb j hj.le r'.writes (by simp [hr']) w hw heq
  intro h k r hr b hb j hj ws hws w hw heq
  rw [getElem?_map, Option.map_eq_some_iff] at hws
  obtain ⟨r', hr', rfl⟩ := hws
  obtain ⟨hjour, hnot⟩ := (r'.writes_to_iff b).mp ⟨w, hw, heq⟩
  rcases hj.lt_or_eq with hj | rfl
  · exact hnot (h k r hr b hb j hj r' hr' hjour)
  rw [hr, Option.some_inj] at hr'
  exact hnot (hr' ▸ hb)

/-- **Revocation** holds for exactly those logs in which every block that a transaction revokes is
also revoked by the earlier ones that journaled it. -/
theorem revocation_iff {g : JournalGeometry} {disk : ℕ → Page4K} {rs : List LogRecord}
    (hg : g.Valid) (hstart : g.superblock.first.toNat ≤ g.superblock.start.toNat)
    (hmax : g.superblock.start.toNat < g.blocks.length)
    (hrs : HeldAll g ⟨disk, []⟩ g.superblock.start.toNat g.superblock.sequence rs)
    (hfit : totalBlocks rs ≤ g.blocks.length - g.superblock.first.toNat)
    (hend : totalBlocks rs < g.blocks.length - g.superblock.first.toNat →
      NoDescriptor g (replayAll rs ⟨disk, []⟩)
        (g.advance^[totalBlocks rs] g.superblock.start.toNat)
        (nextSequence^[rs.length] g.superblock.sequence)) :
    ∃ report image', replayJournal ⟨disk, []⟩ g = .ok (report, image')
      ∧ report.transactions = rs.length
      ∧ (OnlyLaterPayloads rs image'.ops ↔ RevokedWhereJournaled rs) := by
  obtain ⟨report, hreplay, htrans, -⟩ := replayJournal_heldAll _ hg hstart hmax rs hrs hfit hend
  exact ⟨report, _, hreplay, htrans, onlyLaterPayloads_iff rs disk⟩

/-! ### A stale payload -/

def smallRingNext : JournalRing := { smallRing with state := ⟨4, 2, 2, none⟩ }

lemma sound_smallRingNext : smallRingNext.Sound :=
  ⟨by decide, rfl, rfl, by decide, by decide, by decide, rfl, by simp [smallRingNext],
    by simp [smallRingNext, smallRing, lba]⟩

open Jbd2TransactionImage

lemma exists_pages {ring : JournalRing} (h : ring.Sound) {updates : List Jbd2MetadataUpdate}
    {revoked : List UInt32} {r : LogRecord} {n c : ℕ}
    (hr : recordOf ring.journalUuid updates revoked = r)
    (henc : (encodeLegacyWithRevokes ring.state.sequence ring.journalUuid updates revoked).isOk)
    (hres : (ring.reserveWithRevokePages updates.length r.revokes.length).isOk)
    (hn : r.blocks = n) (hc : ring.startOf n = c) :
    ∃ ps : List Page4K, ps.length = n ∧ ∀ (g : JournalGeometry) (image : BlockImage),
      g.blocks = ring.blocks → g.superblock.uuid = ring.journalUuid →
      (∀ i p, ps[i]? = some p → image.block (ring.blocks.getD (c + i) 0) = p) →
      r.Held g image c ring.state.sequence := by
  obtain ⟨img, henc⟩ := exists_ok henc
  obtain ⟨⟨res, ring'⟩, hres⟩ := exists_ok hres
  have hE := encode_ok henc
  have hR := reserve_ok hres
  rw [hr] at hE
  have ht : r.tags.length = updates.length := by simp [← hr, recordOf]
  have hm : img.metadataBlocks.length = r.tags.length := by rw [hE.metadata, r.lengths]
  have hv := hE.revokes.length_eq
  have hlen : r.tags.length + r.revokes.length + 2 = r.blocks := by rw [LogRecord.blocks]; omega
  rw [← ht] at hR
  subst hn hc
  refine ⟨img.pages, by simp [pages, hm, hv, ← hlen, Nat.add_assoc], ?_⟩
  intro g image hg huuid hps
  rw [← hlen] at hps ⊢
  exact held_of_stored h hR (stored_of_pages h hR hm hv hps) hE hg
    (hr ▸ validateTags_recordOf huuid)

lemma exists_staleLog : ∃ (disk : ℕ → Page4K) (g : JournalGeometry) (r₁ r₂ : LogRecord), g.Valid
    ∧ g.superblock.first.toNat ≤ g.superblock.start.toNat
    ∧ g.superblock.start.toNat < g.blocks.length
    ∧ HeldAll g ⟨disk, []⟩ g.superblock.start.toNat g.superblock.sequence [r₁, r₂]
    ∧ totalBlocks [r₁, r₂] = g.blocks.length - g.superblock.first.toNat
    ∧ r₁.writes = [(7, smallSuperblockPage)] ∧ r₂.writes = [(8, zero 4096)]
    ∧ 7 ∈ r₂.revoked ∧ disk 7 = zero 4096 := by
  obtain ⟨r₁, hr₁⟩ : ∃ r, recordOf (zero 16) [⟨7, smallSuperblockPage⟩] [] = r := ⟨_, rfl⟩
  obtain ⟨r₂, hr₂⟩ : ∃ r, recordOf (zero 16) [⟨8, zero 4096⟩] [7] = r := ⟨_, rfl⟩
  have hw₁ : r₁.writes = [(7, smallSuperblockPage)] := by
    rw [← hr₁, writes_recordOf]
    simp [homeWrites]
  have hw₂ : r₂.writes = [(8, zero 4096)] := by
    rw [← hr₂, writes_recordOf]
    simp [homeWrites]
  have hv₁ : r₁.revokes.length = 0 := by
    rw [← hr₁, length_revokes_recordOf]
    simp [revokedBlocks, dedupAdjacent, pageCount, maxBlocksPerPage_eq]
  have hv₂ : r₂.revokes.length = 1 := by
    rw [← hr₂, length_revokes_recordOf]
    simp [revokedBlocks, dedupAdjacent, pageCount, maxBlocksPerPage_eq]
  have hblocks₁ : r₁.blocks = 3 := by rw [LogRecord.blocks, hv₁, ← hr₁]; rfl
  have hblocks₂ : r₂.blocks = 4 := by rw [LogRecord.blocks, hv₂, ← hr₂]; rfl
  obtain ⟨ps₁, hlen₁, hheld₁⟩ := exists_pages sound_smallRing hr₁ (by decide +kernel)
    (by rw [hv₁]; decide +kernel) hblocks₁ (show _ = 1 from rfl)
  obtain ⟨ps₂, hlen₂, hheld₂⟩ := exists_pages sound_smallRingNext hr₂ (by decide +kernel)
    (by rw [hv₂]; decide +kernel) hblocks₂ (show _ = 1 + 3 from rfl)
  -- the log blocks 101 to 107 hold the pages of the two transactions, one after the other
  let log := ps₁ ++ ps₂
  let disk : ℕ → Page4K := fun b => if b < 101 then zero 4096 else log.getD (b - 101) (zero 4096)
  let g := smallRing.activeGeometry 1 smallSuperblockPage
  have hring : ∀ i < 7, smallRing.blocks.getD (1 + i) 0 = 101 + i := by decide
  have hdisk : ∀ i, disk (101 + i) = log.getD i (zero 4096) := fun i => by
    simp [disk]
  refine ⟨disk, g, r₁, r₂, valid_activeGeometry sound_smallRing _ _, by decide, by decide,
    ⟨hheld₁ g _ rfl rfl fun i p hp => ?_, ?_, trivial⟩, ?_, hw₁, hw₂, ?_, rfl⟩
  · have hi : i < 3 := hlen₁ ▸ (List.getElem?_eq_some_iff.mp hp).1
    rw [hring i (by omega)]
    change disk (101 + i) = p
    rw [hdisk, getD, getElem?_append_left (by omega), hp, Option.getD_some]
  · rw [hblocks₁]
    refine hheld₂ g _ rfl rfl fun i p hp => ?_
    have hi : i < 4 := hlen₂ ▸ (List.getElem?_eq_some_iff.mp hp).1
    rw [Nat.add_assoc, show smallRingNext.blocks = smallRing.blocks from rfl,
      hring (3 + i) (by omega), LogRecord.replay, barrier_block,
      writeAll_block_of_notMem _ (by rw [hw₁]; simp; omega)]
    change disk (101 + (3 + i)) = p
    rw [hdisk, getD, getElem?_append_right (by omega), hlen₁, Nat.add_sub_cancel_left, hp,
      Option.getD_some]
  · simp [totalBlocks, hblocks₁, hblocks₂]
    rfl
  · rw [← hr₂, mem_revoked_recordOf]
    decide

/-- The second transaction revokes block 7, and still replay leaves the payload of the first in
it. -/
theorem revoked_block_replayed : ∃ (disk : ℕ → Page4K) (g : JournalGeometry) (r₁ r₂ : LogRecord)
    (report : JournalReplayReport) (image' : BlockImage),
    HeldAll g ⟨disk, []⟩ g.superblock.start.toNat g.superblock.sequence [r₁, r₂]
      ∧ replayJournal ⟨disk, []⟩ g = .ok (report, image') ∧ report.transactions = 2
      ∧ r₁.writes = [(7, smallSuperblockPage)] ∧ 7 ∈ r₂.revoked
      ∧ disk 7 ≠ smallSuperblockPage ∧ image'.block 7 = smallSuperblockPage := by
  obtain ⟨disk, g, r₁, r₂, hg, hstart, hmax, hheld, htotal, hw₁, hw₂, hrev, hdisk⟩ :=
    exists_staleLog
  obtain ⟨report, hreplay, htrans, -⟩ := replayJournal_heldAll _ hg hstart hmax [r₁, r₂] hheld
    htotal.le (fun h => absurd htotal h.ne)
  refine ⟨disk, g, r₁, r₂, report, _, hheld, hreplay, htrans, hw₁, hrev, ?_, ?_⟩
  · rw [hdisk]
    decide +kernel
  change (r₂.replay (r₁.replay ⟨disk, []⟩)).block 7 = smallSuperblockPage
  rw [LogRecord.replay, barrier_block, writeAll_block_of_notMem _ (by simp [hw₂]), LogRecord.replay,
    barrier_block, hw₁]
  rfl

theorem revocation_iff_staleLog : ∃ (disk : ℕ → Page4K) (g : JournalGeometry)
    (rs : List LogRecord) (report : JournalReplayReport) (image' : BlockImage), rs.length = 2
      ∧ replayJournal ⟨disk, []⟩ g = .ok (report, image')
      ∧ (OnlyLaterPayloads rs image'.ops ↔ RevokedWhereJournaled rs) := by
  obtain ⟨disk, g, r₁, r₂, hg, hstart, hmax, hheld, htotal, -⟩ := exists_staleLog
  obtain ⟨report, image', hreplay, -, hiff⟩ :=
    revocation_iff hg hstart hmax hheld htotal.le fun h => absurd htotal h.ne
  exact ⟨disk, g, [r₁, r₂], report, image', rfl, hreplay, hiff⟩

end TxKernel.Ext4
