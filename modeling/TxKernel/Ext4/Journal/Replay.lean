import TxKernel.Ext4.Journal.Codec

/-!
Mount-time replay of the journal: one forward scan that applies each committed transaction as it is
read, and the clean superblock that is published afterwards.
-/

namespace TxKernel.Ext4

open Bytes

/-- The ring blocks of the journal: `blocks[logical]` is the physical block of a ring block. -/
structure JournalGeometry where
  superblock : Jbd2Superblock
  blocks : List ℕ
  superblockPage : Option Page4K
  deriving DecidableEq

structure JournalReplayReport where
  transactions : ℕ
  blocksReplayed : ℕ
  nextSequence : UInt32
  deriving DecidableEq

inductive RecoveryReport
  | notRequired
  | replayed (report : JournalReplayReport)
  deriving DecidableEq

/-- The geometry that the journal file shows: `fileBlocks` are its blocks, as its inode maps
them. -/
def journalGeometry (image : BlockImage) (fileBlocks : List ℕ) : Result JournalGeometry := do
  match fileBlocks.head? with
  | none => throw .unsupported
  | some block =>
    let superblockPage := image.readBlock block
    let superblock ← Jbd2Superblock.parse superblockPage.bytes
    if fileBlocks.length < superblock.maxLen.toNat then
      throw .corrupt
    return { superblock, blocks := fileBlocks.take superblock.maxLen.toNat
             superblockPage := some superblockPage }

def nextSequence (sequence : UInt32) : UInt32 := max (sequence + 1) 1

namespace JournalGeometry

def validateGeometry (g : JournalGeometry) : Result Unit :=
  let maxLen := g.superblock.maxLen.toNat
  let first := g.superblock.first.toNat
  let start := g.superblock.start.toNat
  if maxLen ≠ g.blocks.length ∨ maxLen < 2 ∨ first = 0 ∨ maxLen ≤ first then .error .corrupt
  else if start ≠ 0 ∧ (start < first ∨ maxLen ≤ start) then .error .corrupt
  else .ok ()

def readLogPage (g : JournalGeometry) (image : BlockImage) (logical : ℕ) : Result Page4K :=
  match g.blocks[logical]? with
  | some physical => .ok (image.readBlock physical)
  | none => .error .outOfBounds

def advance (g : JournalGeometry) (logical : ℕ) : ℕ :=
  if logical + 1 = g.blocks.length then g.superblock.first.toNat else logical + 1

end JournalGeometry

open JournalGeometry

def validateTags (d : Jbd2Descriptor) (g : JournalGeometry) : Result Unit :=
  if d.tags.any fun tag => tag.deleted || tag.uuid.any (· ≠ g.superblock.uuid) then
    .error .unsupported
  else .ok ()

def validateCommitChecksum (c : Jbd2Commit) : Result Unit :=
  if c.checksumType = 0 ∧ c.checksumSize = 0 ∧ c.checksums.all (· == 0) then .ok ()
  else .error .unsupported

def readPayloads (g : JournalGeometry) (image : BlockImage) : ℕ → ℕ → Result (List Page4K × ℕ)
  | 0, cursor => .ok ([], cursor)
  | k + 1, cursor => do
    let payload ← g.readLogPage image cursor
    let (payloads, cursor) ← readPayloads g image k (g.advance cursor)
    return (payload :: payloads, cursor)

/-- A page that does not parse ends the scan; other errors end the replay. -/
def tolerate {α : Type} : Result α → Result (Option α)
  | .ok a => .ok (some a)
  | .error .badMagic => .ok none
  | .error .corrupt => .ok none
  | .error e => .error e

@[simp] lemma tolerate_ok {α : Type} (a : α) : tolerate (.ok a) = .ok (some a) := rfl

structure FoundCommit where
  commit : Jbd2Commit
  cursor : ℕ
  recordBlocks : ℕ
  revoked : List UInt32

/-- The loop over the revoke blocks of a record, up to its commit block; `none` ends the scan. A
record takes at most `budget` blocks. -/
def findCommit (g : JournalGeometry) (image : BlockImage) (budget : ℕ) (sequence : UInt32) :
    ℕ → ℕ → ℕ → List UInt32 → Result (Option FoundCommit)
  | 0, _, _, _ => .ok none
  | fuel + 1, cursor, recordBlocks, revoked => do
    let page ← g.readLogPage image cursor
    match ← tolerate (Jbd2Header.parse page.bytes) with
    | none => return none
    | some header =>
      if header.blockType = JBD2_BLOCK_COMMIT then
        match ← tolerate (Jbd2Commit.parse page.bytes) with
        | none => return none
        | some commit => return some { commit, cursor, recordBlocks, revoked }
      else if header.blockType = JBD2_BLOCK_REVOKE then
        if budget < recordBlocks + 1 then
          return none
        else
          match ← tolerate (Jbd2Revoke.parse page.bytes) with
          | none => return none
          | some revoke =>
            if revoke.header.sequence ≠ sequence then
              return none
            else
              findCommit g image budget sequence fuel (g.advance cursor) (recordBlocks + 1)
                (revoked ++ revoke.blocks)
      else
        return none

def unescape (tag : Jbd2Tag) (payload : Page4K) : Page4K :=
  if tag.escaped then withHead payload ⟨be 4 JBD2_MAGIC.toNat, length_be _ _⟩ else payload

/-- Write the payloads of a committed record to their homes, except those it revokes. -/
def applyPayloads (revoked : List UInt32) :
    List (Jbd2Tag × Page4K) → BlockImage → ℕ → Result (BlockImage × ℕ)
  | [], image, blocksReplayed => .ok (image, blocksReplayed)
  | (tag, payload) :: rest, image, blocksReplayed =>
    if tag.targetBlock ∈ revoked then
      applyPayloads revoked rest image blocksReplayed
    else if blocksReplayed + 1 < 2 ^ 32 then
      applyPayloads revoked rest
        (image.writeBlock tag.targetBlock.toNat (unescape tag payload)) (blocksReplayed + 1)
    else .error .outOfBounds

structure ScanState where
  image : BlockImage
  cursor : ℕ
  scanned : ℕ
  transactions : ℕ
  blocksReplayed : ℕ
  expectedSequence : UInt32

/-- One pass of the scan loop; `none` leaves the loop. -/
def scanStep (g : JournalGeometry) (limit : ℕ) (s : ScanState) : Result (Option ScanState) := do
  let page ← g.readLogPage s.image s.cursor
  match Jbd2Header.parse page.bytes with
  | .error .badMagic => return none
  | .error e => throw e
  | .ok header =>
    if header.blockType ≠ JBD2_BLOCK_DESCRIPTOR ∨ header.sequence ≠ s.expectedSequence then
      return none
    else
      let descriptor ← Jbd2Descriptor.parseLegacy page.bytes
      validateTags descriptor g
      let recordBlocks := descriptor.tags.length + 2
      if limit - s.scanned < recordBlocks then
        return none
      else
        let (payloads, cursor) ←
          readPayloads g s.image descriptor.tags.length (g.advance s.cursor)
        match ← findCommit g s.image (limit - s.scanned) descriptor.header.sequence limit cursor
            recordBlocks [] with
        | none => return none
        | some found =>
          if found.commit.header.sequence ≠ descriptor.header.sequence then
            return none
          else
            validateCommitChecksum found.commit
            let (image, blocksReplayed) ← applyPayloads found.revoked
              (descriptor.tags.zip payloads) s.image s.blocksReplayed
            if s.transactions + 1 < 2 ^ 32 then
              return some { image := image.barrier
                            cursor := g.advance found.cursor
                            scanned := s.scanned + found.recordBlocks
                            transactions := s.transactions + 1
                            blocksReplayed
                            expectedSequence := nextSequence s.expectedSequence }
            else
              throw .outOfBounds

/-- The scan loop. A record takes at least two blocks, so `limit` is fuel enough. -/
def scan (g : JournalGeometry) (limit : ℕ) : ℕ → ScanState → Result ScanState
  | 0, s => .ok s
  | fuel + 1, s => do
    if s.scanned < limit then
      match ← scanStep g limit s with
      | none => return s
      | some s' => scan g limit fuel s'
    else
      return s

def replayJournal (image : BlockImage) (g : JournalGeometry) :
    Result (JournalReplayReport × BlockImage) := do
  g.validateGeometry
  if g.superblock.start = 0 then
    return ({ transactions := 0, blocksReplayed := 0, nextSequence := g.superblock.sequence },
      image)
  else
    let limit := g.blocks.length - g.superblock.first.toNat
    let s ← scan g limit limit
      { image, cursor := g.superblock.start.toNat, scanned := 0, transactions := 0
        blocksReplayed := 0, expectedSequence := g.superblock.sequence }
    return ({ transactions := s.transactions, blocksReplayed := s.blocksReplayed
              nextSequence := s.expectedSequence }, s.image)

def cleanReplayedJournal (image : BlockImage) (g : JournalGeometry) (nextSequence : UInt32) :
    Result BlockImage := do
  g.validateGeometry
  match g.superblockPage with
  | none => throw .unsupported
  | some page =>
    let page ← g.superblock.writeState page (max nextSequence 1) 0
    match g.blocks.head? with
    | none => throw .corrupt
    | some block => return (image.writeBlock block page).barrier

def recoverIfRequired (image : BlockImage) (needsRecovery : Bool) (g : JournalGeometry) :
    Result (RecoveryReport × BlockImage) := do
  if needsRecovery then
    let (replay, image) ← replayJournal image g
    let image ← cleanReplayedJournal image g replay.nextSequence
    return (.replayed replay, image)
  else
    return (.notRequired, image)

end TxKernel.Ext4
