import TxKernel.Ext4.Journal.Replay
import TxKernel.Ext4.Journal.RoundTrip

/-!
What the replay scan does with a record: one pass of the loop reads it, writes its payloads to their
homes and moves on behind it.
-/

namespace TxKernel.Ext4

open JournalGeometry List Jbd2Header Function Jbd2Descriptor

variable {g : JournalGeometry} {image : BlockImage} {c k budget : ℕ}

/-! ### Positions in the ring -/

def JournalGeometry.Valid (g : JournalGeometry) : Prop :=
  g.superblock.maxLen.toNat = g.blocks.length ∧ 0 < g.superblock.first.toNat
    ∧ g.superblock.first.toNat < g.blocks.length

lemma validateGeometry_of_valid (h : g.Valid)
    (hs : g.superblock.start.toNat = 0 ∨ g.superblock.first.toNat ≤ g.superblock.start.toNat
      ∧ g.superblock.start.toNat < g.blocks.length) : g.validateGeometry = .ok () := by
  obtain ⟨hmax, hpos, hlt⟩ := h
  rw [validateGeometry]
  rw [if_neg (by omega), if_neg (by omega)]

lemma advance_lt (h : g.Valid) (hc : c < g.blocks.length) : g.advance c < g.blocks.length := by
  rw [advance]
  split
  · exact h.2.2
  · omega

lemma iterate_advance_lt (h : g.Valid) (hc : c < g.blocks.length) (i : ℕ) :
    g.advance^[i] c < g.blocks.length := by
  induction i generalizing c with
  | zero => exact hc
  | succ i ih => exact ih (advance_lt h hc)

lemma iterate_advance_of_le (i : ℕ) (h : c + i < g.blocks.length) : g.advance^[i] c = c + i := by
  induction i with
  | zero => rfl
  | succ i ih =>
    rw [iterate_succ_apply', ih (by omega), advance, if_neg (by omega)]
    omega

lemma iterate_advance_of_end {n : ℕ} (hn : 0 < n) (h : c + n ≤ g.blocks.length) :
    g.advance^[n] c = if c + n = g.blocks.length then g.superblock.first.toNat else c + n := by
  obtain ⟨n, rfl⟩ : ∃ m, n = m + 1 := ⟨n - 1, by omega⟩
  rw [iterate_succ_apply', iterate_advance_of_le n (by omega)]
  rfl

def JournalGeometry.logPage (g : JournalGeometry) (image : BlockImage) (logical : ℕ) : Page4K :=
  image.block (g.blocks.getD logical 0)

lemma readLogPage_eq (h : c < g.blocks.length) :
    g.readLogPage image c = .ok (g.logPage image c) := by
  rw [readLogPage, logPage, getD, getElem?_eq_getElem h]
  rfl

/-! ### Records -/

/-- A transaction in the log: its tags, the journal copies they describe, and the blocks that each
of its revoke pages names. -/
structure LogRecord where
  tags : List Jbd2Tag
  payloads : List Page4K
  revokes : List (List UInt32)
  lengths : payloads.length = tags.length

namespace LogRecord

def revoked (r : LogRecord) : List UInt32 := r.revokes.flatten

def blocks (r : LogRecord) : ℕ := r.tags.length + 2 + r.revokes.length

def writes (r : LogRecord) : List (ℕ × Page4K) :=
  ((r.tags.zip r.payloads).filter fun t => decide (t.1.targetBlock ∉ r.revoked)).map
    fun t => (t.1.targetBlock.toNat, unescape t.1 t.2)

/-- The ring holds the committed record `r` of the given sequence from `c` on. -/
structure Held (r : LogRecord) (g : JournalGeometry) (image : BlockImage) (c : ℕ)
    (sequence : UInt32) : Prop where
  descriptor : Jbd2Descriptor.parseLegacy (g.logPage image c).bytes
    = .ok ⟨Jbd2Header.descriptor sequence, r.tags⟩
  tags : validateTags ⟨Jbd2Header.descriptor sequence, r.tags⟩ g = .ok ()
  payloads : ∀ i p, r.payloads[i]? = some p → g.logPage image (g.advance^[i + 1] c) = p
  revokes : ∀ i blocks, r.revokes[i]? = some blocks → Jbd2Revoke.parse
    (g.logPage image (g.advance^[1 + r.tags.length + i] c)).bytes
      = .ok ⟨Jbd2Header.revoke sequence, blocks⟩
  commit : ∃ commit, Jbd2Commit.parse
    (g.logPage image (g.advance^[1 + r.tags.length + r.revokes.length] c)).bytes = .ok commit
      ∧ commit.header = Jbd2Header.commit sequence ∧ validateCommitChecksum commit = .ok ()

end LogRecord

/-! ### The parts of one pass -/

lemma readPayloads_eq (image : BlockImage) (hg : g.Valid) (hc : c < g.blocks.length)
    (ps : List Page4K)
    (h : ∀ i p, ps[i]? = some p → g.logPage image (g.advance^[i] c) = p) :
    readPayloads g image ps.length c = .ok (ps, g.advance^[ps.length] c) := by
  induction ps generalizing c with
  | nil => rfl
  | cons p ps ih =>
    have hp : g.logPage image c = p := h 0 p rfl
    have hps := ih (advance_lt hg hc) fun i q hq => h (i + 1) q (by simpa using hq)
    rw [length_cons, readPayloads, readLogPage_eq hc, ok_bind, hps, hp]
    rfl

variable {bytes : List UInt8} {s : ScanState}

lemma header_of_parseLegacy {d : Jbd2Descriptor} (h : parseLegacy bytes = .ok d) :
    parse bytes = .ok d.header ∧ d.header.blockType = JBD2_BLOCK_DESCRIPTOR := by
  rw [parseLegacy, bind_eq_ok] at h
  obtain ⟨header, hheader, h⟩ := h
  rw [check_eq_ok, bind_eq_ok] at h
  obtain ⟨htype, tags, -, h⟩ := h
  rw [pure_eq_ok, Except.ok.injEq] at h
  subst h
  exact ⟨hheader, not_not.mp htype⟩

lemma header_of_parse_revoke {r : Jbd2Revoke} (h : Jbd2Revoke.parse bytes = .ok r) :
    parse bytes = .ok r.header ∧ r.header.blockType = JBD2_BLOCK_REVOKE := by
  rw [Jbd2Revoke.parse, bind_eq_ok] at h
  obtain ⟨_, -, h⟩ := h
  rw [bind_eq_ok] at h
  obtain ⟨header, hheader, h⟩ := h
  rw [check_eq_ok, bind_eq_ok] at h
  obtain ⟨htype, count, -, h⟩ := h
  rw [check_eq_ok, check_eq_ok, bind_eq_ok] at h
  obtain ⟨-, -, blocks, -, h⟩ := h
  rw [pure_eq_ok, Except.ok.injEq] at h
  subst h
  exact ⟨hheader, not_not.mp htype⟩

lemma header_of_parse_commit {commit : Jbd2Commit} (h : Jbd2Commit.parse bytes = .ok commit) :
    parse bytes = .ok commit.header ∧ commit.header.blockType = JBD2_BLOCK_COMMIT := by
  rw [Jbd2Commit.parse, bind_eq_ok] at h
  obtain ⟨_, -, h⟩ := h
  rw [bind_eq_ok] at h
  obtain ⟨header, hheader, h⟩ := h
  rw [check_eq_ok, bind_eq_ok] at h
  obtain ⟨htype, sums, -, h⟩ := h
  rw [bind_eq_ok] at h
  obtain ⟨seconds, -, h⟩ := h
  rw [bind_eq_ok] at h
  obtain ⟨ns, -, h⟩ := h
  rw [pure_eq_ok, Except.ok.injEq] at h
  subst h
  exact ⟨hheader, not_not.mp htype⟩

lemma findCommit_eq (image : BlockImage) (budget : ℕ) (hg : g.Valid) (hc : c < g.blocks.length)
    (sequence : UInt32) (rs : List (List UInt32)) (recordBlocks fuel : ℕ) (revoked : List UInt32)
    (commit : Jbd2Commit)
    (hrs : ∀ i blocks, rs[i]? = some blocks → Jbd2Revoke.parse
      (g.logPage image (g.advance^[i] c)).bytes = .ok ⟨revoke sequence, blocks⟩)
    (hcommit : Jbd2Commit.parse (g.logPage image (g.advance^[rs.length] c)).bytes = .ok commit)
    (hbudget : recordBlocks + rs.length ≤ budget) (hfuel : rs.length < fuel) :
    findCommit g image budget sequence fuel c recordBlocks revoked
      = .ok (some
        ⟨commit, g.advance^[rs.length] c, recordBlocks + rs.length, revoked ++ rs.flatten⟩) := by
  induction rs generalizing c recordBlocks fuel revoked with
  | nil =>
    rcases fuel with _ | fuel
    · simp at hfuel
    obtain ⟨hheader, htype⟩ := header_of_parse_commit hcommit
    simp only [length_nil, iterate_zero, id_eq] at hcommit hheader
    rw [findCommit, readLogPage_eq hc, ok_bind, hheader]
    simp [htype, hcommit]
  | cons blocks rs ih =>
    rcases fuel with _ | fuel
    · simp at hfuel
    have hrevoke := hrs 0 blocks rfl
    obtain ⟨hheader, htype⟩ := header_of_parse_revoke hrevoke
    simp only [iterate_zero, id_eq] at hrevoke hheader
    rw [length_cons] at hbudget hfuel
    have hrest := ih (advance_lt hg hc) (recordBlocks + 1) fuel
      (revoked ++ blocks) (fun i b hb => hrs (i + 1) b (by simpa using hb)) hcommit
      (by omega) (by omega)
    have hne : ¬ JBD2_BLOCK_REVOKE = JBD2_BLOCK_COMMIT := by decide
    rw [findCommit, readLogPage_eq hc, ok_bind, hheader, tolerate_ok, ok_bind]
    simp only [revoke] at hrevoke ⊢
    rw [if_neg hne, if_pos trivial, if_neg (by omega), hrevoke, tolerate_ok, ok_bind]
    simp only [ne_eq, not_true_eq_false, if_false, hrest]
    simp [Nat.add_assoc, Nat.add_comm 1]

lemma applyPayloads_eq (image : BlockImage) (revoked : List UInt32) (ts : List (Jbd2Tag × Page4K))
    (n : ℕ) (hn : n + ts.length < 2 ^ 32) :
    ∃ m, m ≤ n + ts.length ∧ applyPayloads revoked ts image n
      = .ok (image.writeAll ((ts.filter fun t => decide (t.1.targetBlock ∉ revoked)).map
          fun t => (t.1.targetBlock.toNat, unescape t.1 t.2)), m) := by
  induction ts generalizing image n with
  | nil => exact ⟨n, le_refl _, rfl⟩
  | cons t ts ih =>
    rw [length_cons] at hn ⊢
    by_cases ht : t.1.targetBlock ∈ revoked
    · obtain ⟨m, hm, heq⟩ := ih image n (by omega)
      refine ⟨m, by omega, ?_⟩
      rw [applyPayloads, if_pos ht, heq]
      simp [ht]
    obtain ⟨m, hm, heq⟩ := ih
      (image.writeBlock t.1.targetBlock.toNat (unescape t.1 t.2)) (n + 1) (by omega)
    refine ⟨m, by omega, ?_⟩
    rw [applyPayloads, if_neg ht, if_pos (by omega), heq]
    simp [ht, BlockImage.writeAll_cons]

/-! ### One pass of the loop -/

def LogRecord.replay (r : LogRecord) (image : BlockImage) : BlockImage :=
  (image.writeAll r.writes).barrier

structure ScanState.Within (s : ScanState) (limit : ℕ) : Prop where
  transactions : s.transactions ≤ s.scanned
  replayed : s.blocksReplayed ≤ s.scanned
  scanned : s.scanned ≤ limit

/-- **One pass** over a committed record of the expected sequence replays it and moves on. -/
theorem scanStep_held {r : LogRecord} {limit : ℕ} (hg : g.Valid) (hlimit : limit < 2 ^ 32)
    (hc : s.cursor < g.blocks.length) (hs : s.Within limit)
    (hr : r.Held g s.image s.cursor s.expectedSequence) (hfit : s.scanned + r.blocks ≤ limit) :
    ∃ s', scanStep g limit s = .ok (some s') ∧ s'.Within limit ∧ s'.image = r.replay s.image
      ∧ s'.cursor = g.advance^[r.blocks] s.cursor ∧ s'.scanned = s.scanned + r.blocks
      ∧ s'.expectedSequence = nextSequence s.expectedSequence
      ∧ s'.transactions = s.transactions + 1 := by
  obtain ⟨hheader, htype⟩ := header_of_parseLegacy hr.descriptor
  obtain ⟨commit, hcommit, hseq, hsum⟩ := hr.commit
  have hblocks : r.blocks = r.tags.length + 2 + r.revokes.length := rfl
  have hpos := advance_lt hg hc
  have hpay := readPayloads_eq s.image hg hpos r.payloads fun i p hp => hr.payloads i p hp
  rw [r.lengths, ← iterate_succ_apply] at hpay
  have hfind := findCommit_eq s.image (limit - s.scanned) hg
    (iterate_advance_lt hg hc (r.tags.length + 1)) s.expectedSequence r.revokes
    (r.tags.length + 2) limit [] commit
    (fun i b hb => by
      rw [← iterate_add_apply, show i + (r.tags.length + 1) = 1 + r.tags.length + i by omega]
      exact hr.revokes i b hb)
    (by rw [← iterate_add_apply,
          show r.revokes.length + (r.tags.length + 1) =
            1 + r.tags.length + r.revokes.length by omega]
        exact hcommit)
    (by omega) (by omega)
  have hzip : (r.tags.zip r.payloads).length = r.tags.length := by simp [r.lengths]
  obtain ⟨m, hm, happly⟩ := applyPayloads_eq s.image r.revoked (r.tags.zip r.payloads)
    s.blocksReplayed (by have := hs.replayed; omega)
  refine ⟨⟨r.replay s.image, g.advance^[r.blocks] s.cursor, s.scanned + r.blocks,
    s.transactions + 1, m, nextSequence s.expectedSequence⟩, ?_, ⟨?_, ?_, hfit⟩, rfl, rfl, rfl, rfl,
      rfl⟩
  · have hcursor : g.advance (g.advance^[r.revokes.length] (g.advance^[r.tags.length + 1] s.cursor))
        = g.advance^[r.blocks] s.cursor := by
      rw [← iterate_add_apply, ← iterate_succ_apply' g.advance]
      congr 2
      omega
    have hstart : ¬ ((descriptor s.expectedSequence).blockType ≠ JBD2_BLOCK_DESCRIPTOR
        ∨ (descriptor s.expectedSequence).sequence ≠ s.expectedSequence) := by
      simp [descriptor]
    rw [scanStep, readLogPage_eq hc, ok_bind, hheader]
    simp only [hstart, if_false, hr.descriptor, ok_bind, hr.tags,
      if_neg (show ¬ limit - s.scanned < r.tags.length + 2 by omega), hpay]
    simp only [Jbd2Header.descriptor, hfind, ok_bind, hseq, Jbd2Header.commit, hsum,
      nil_append, ne_eq, not_true_eq_false, if_false]
    rw [LogRecord.revoked] at happly
    rw [happly, ok_bind, hcursor]
    have := hs.transactions
    simp only [if_pos (show s.transactions + 1 < 2 ^ 32 by omega)]
    rfl
  · have := hs.transactions
    change s.transactions + 1 ≤ s.scanned + r.blocks
    omega
  · have := hs.replayed
    change m ≤ s.scanned + r.blocks
    omega

def NoDescriptor (g : JournalGeometry) (image : BlockImage) (c : ℕ) (sequence : UInt32) : Prop :=
  ∀ header, Jbd2Header.parse (g.logPage image c).bytes = .ok header →
    header.blockType = JBD2_BLOCK_DESCRIPTOR → header.sequence ≠ sequence

lemma scanStep_noDescriptor (limit : ℕ) (hc : s.cursor < g.blocks.length)
    (h : NoDescriptor g s.image s.cursor s.expectedSequence) : scanStep g limit s = .ok none := by
  rw [scanStep, readLogPage_eq hc, ok_bind]
  rcases hp : parse (g.logPage s.image s.cursor).bytes with e | header
  · rw [parse_page] at hp
    split at hp
    · cases hp
    cases hp
    rfl
  · simp only
    rw [if_pos (by tauto)]
    rfl

/-! ### Consecutive records -/

def replayAll (rs : List LogRecord) (image : BlockImage) : BlockImage :=
  rs.foldl (fun image r => r.replay image) image

def totalBlocks (rs : List LogRecord) : ℕ := (rs.map LogRecord.blocks).sum

lemma length_le_totalBlocks (rs : List LogRecord) : 2 * rs.length ≤ totalBlocks rs := by
  induction rs with
  | nil => simp
  | cons r rs ih =>
    simp only [totalBlocks, map_cons, sum_cons, length_cons, LogRecord.blocks] at ih ⊢
    omega

/-- The ring holds committed records of consecutive sequences from `c` on, each as the scan finds
it. -/
def HeldAll (g : JournalGeometry) : BlockImage → ℕ → UInt32 → List LogRecord → Prop
  | _, _, _, [] => True
  | image, c, seq, r :: rs => r.Held g image c seq
    ∧ HeldAll g (r.replay image) (g.advance^[r.blocks] c) (nextSequence seq) rs

/-- **A scan** over consecutive committed records replays them in order, and ends behind them. -/
theorem scan_heldAll (limit fuel : ℕ) (hg : g.Valid) (hlimit : limit < 2 ^ 32) (rs : List LogRecord)
    (hc : s.cursor < g.blocks.length) (hs : s.Within limit)
    (hrs : HeldAll g s.image s.cursor s.expectedSequence rs)
    (hfit : s.scanned + totalBlocks rs ≤ limit)
    (hend : s.scanned + totalBlocks rs < limit → NoDescriptor g (replayAll rs s.image)
      (g.advance^[totalBlocks rs] s.cursor) (nextSequence^[rs.length] s.expectedSequence))
    (hfuel : rs.length < fuel) :
    ∃ s', scan g limit fuel s = .ok s' ∧ s'.image = replayAll rs s.image
      ∧ s'.expectedSequence = nextSequence^[rs.length] s.expectedSequence
      ∧ s'.transactions = s.transactions + rs.length := by
  rcases fuel with _ | fuel
  · omega
  induction rs generalizing s fuel with
  | nil =>
    refine ⟨s, ?_, rfl, rfl, rfl⟩
    rw [scan]
    by_cases hlt : s.scanned < limit
    · have hnone := scanStep_noDescriptor limit hc (hend (by simpa [totalBlocks] using hlt))
      rw [if_pos hlt, hnone]
      rfl
    · rw [if_neg hlt]
      rfl
  | cons r rs ih =>
    have htotal : totalBlocks (r :: rs) = r.blocks + totalBlocks rs := by simp [totalBlocks]
    have hpos : 0 < r.blocks := by rw [LogRecord.blocks]; omega
    obtain ⟨s₁, hstep, hs₁, himage, hcursor, hscanned, hseq, htrans⟩ :=
      scanStep_held hg hlimit hc hs hrs.1 (by omega)
    rcases fuel with _ | fuel
    · simp at hfuel
    obtain ⟨s', hscan, himage', hseq', htrans'⟩ := ih (s := s₁)
      (by rw [hcursor]; exact iterate_advance_lt hg hc _) hs₁
      (by rw [himage, hcursor, hseq]; exact hrs.2) (by omega)
      (by
        intro hlt
        have := hend (by omega)
        rw [htotal, Nat.add_comm r.blocks, iterate_add_apply] at this
        rw [himage, hcursor, hseq]
        exact this)
      fuel (by simpa using hfuel)
    refine ⟨s', ?_, ?_, ?_, ?_⟩
    · rw [scan, if_pos (by omega), hstep]
      exact hscan
    · rw [himage', himage]
      rfl
    · rw [hseq', hseq]
      rfl
    · rw [htrans', htrans, length_cons]
      omega

theorem replayJournal_heldAll (image : BlockImage) (hg : g.Valid)
    (hstart : g.superblock.first.toNat ≤ g.superblock.start.toNat)
    (hmax : g.superblock.start.toNat < g.blocks.length) (rs : List LogRecord)
    (hrs : HeldAll g image g.superblock.start.toNat g.superblock.sequence rs)
    (hfit : totalBlocks rs ≤ g.blocks.length - g.superblock.first.toNat)
    (hend : totalBlocks rs < g.blocks.length - g.superblock.first.toNat →
      NoDescriptor g (replayAll rs image) (g.advance^[totalBlocks rs] g.superblock.start.toNat)
        (nextSequence^[rs.length] g.superblock.sequence)) :
    ∃ report, replayJournal image g = .ok (report, replayAll rs image)
      ∧ report.transactions = rs.length
      ∧ report.nextSequence = nextSequence^[rs.length] g.superblock.sequence := by
  have hg' := hg
  obtain ⟨hlen, hfirst, hlt⟩ := hg'
  have hbound := g.superblock.maxLen.toNat_lt
  have hne : g.superblock.start ≠ 0 := by
    intro h
    rw [h] at hstart
    simp at hstart
    omega
  have hcount := length_le_totalBlocks rs
  obtain ⟨s', hscan, himage, hseq, htrans⟩ := scan_heldAll
    (g.blocks.length - g.superblock.first.toNat) (g.blocks.length - g.superblock.first.toNat)
    (s := ⟨image, g.superblock.start.toNat, 0, 0, 0, g.superblock.sequence⟩) hg (by omega) rs hmax
    ⟨le_refl _, le_refl _, Nat.zero_le _⟩ hrs (by simpa using hfit) (by simpa using hend) (by omega)
  rw [replayJournal, validateGeometry_of_valid hg (.inr ⟨hstart, hmax⟩), ok_bind, if_neg hne]
  simp only [hscan, ok_bind, pure_eq_ok, himage]
  exact ⟨_, rfl, by simpa using htrans, hseq⟩

end TxKernel.Ext4
