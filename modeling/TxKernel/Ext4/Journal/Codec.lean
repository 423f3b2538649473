import TxKernel.Ext4.Format

/-!
The JBD2 record codecs: block headers, the journal superblock, descriptor tags, commit and revoke
blocks, and the pages of one transaction.
-/

namespace TxKernel.Ext4

open Bytes

def JBD2_MAGIC : UInt32 := 0xC03B3998
def JBD2_BLOCK_DESCRIPTOR : UInt32 := 1
def JBD2_BLOCK_COMMIT : UInt32 := 2
def JBD2_BLOCK_SUPERBLOCK_V1 : UInt32 := 3
def JBD2_BLOCK_SUPERBLOCK_V2 : UInt32 := 4
def JBD2_BLOCK_REVOKE : UInt32 := 5
def JBD2_BLOCK_SIZE : ℕ := 4096

def TAG_ESCAPE : UInt16 := 0x0001
def TAG_SAME_UUID : UInt16 := 0x0002
def TAG_DELETED : UInt16 := 0x0004
def TAG_LAST : UInt16 := 0x0008
def TAG_UNSUPPORTED : UInt16 := ~~~(TAG_ESCAPE ||| TAG_SAME_UUID ||| TAG_DELETED ||| TAG_LAST)

abbrev Uuid := Buf 16

/-! ### Block headers -/

structure Jbd2Header where
  blockType : UInt32
  sequence : UInt32
  deriving DecidableEq

namespace Jbd2Header

def encodedLen : ℕ := 12

def descriptor (sequence : UInt32) : Jbd2Header := ⟨JBD2_BLOCK_DESCRIPTOR, sequence⟩
def commit (sequence : UInt32) : Jbd2Header := ⟨JBD2_BLOCK_COMMIT, sequence⟩
def revoke (sequence : UInt32) : Jbd2Header := ⟨JBD2_BLOCK_REVOKE, sequence⟩

def parse (bytes : List UInt8) : Result Jbd2Header := do
  requireLen bytes encodedLen
  let magic ← readU32 bytes 0
  if magic ≠ JBD2_MAGIC then
    throw .badMagic
  let blockType ← readU32 bytes 4
  let sequence ← readU32 bytes 8
  return { blockType, sequence }

def encode {n : ℕ} (h : Jbd2Header) (b : Buf n) : Result (Buf n) := do
  requireLen b.bytes encodedLen
  let b ← writeU32 b 0 JBD2_MAGIC
  let b ← writeU32 b 4 h.blockType
  writeU32 b 8 h.sequence

end Jbd2Header

/-! ### The journal superblock -/

structure Jbd2Superblock where
  blockType : UInt32
  blockSize : UInt32
  maxLen : UInt32
  first : UInt32
  sequence : UInt32
  start : UInt32
  uuid : Uuid
  deriving DecidableEq

namespace Jbd2Superblock

def encodedLen : ℕ := 64
def INCOMPAT_CSUM_V2 : UInt32 := 0x00000008
def INCOMPAT_CSUM_V3 : UInt32 := 0x00000010
def CHECKSUM_TYPE_OFFSET : ℕ := 0x50
def CHECKSUM_OFFSET : ℕ := 0xFC
def CHECKSUM_COVERED_LEN : ℕ := 1024
def CRC32C_CHECKSUM_TYPE : UInt8 := 4

def Checksummed (incompat : UInt32) : Prop :=
  incompat &&& (INCOMPAT_CSUM_V2 ||| INCOMPAT_CSUM_V3) ≠ 0

instance (incompat : UInt32) : Decidable (Checksummed incompat) :=
  inferInstanceAs (Decidable (_ ≠ _))

/-- The checksum over the fixed domain, with the checksum field itself taken as zero. -/
def checksumOf (bytes : List UInt8) : UInt32 :=
  crc32cAppend
    (crc32cAppend (crc32cAppend 0xFFFFFFFF (bytes.take CHECKSUM_OFFSET)) (List.replicate 4 0))
    ((bytes.drop (CHECKSUM_OFFSET + 4)).take (CHECKSUM_COVERED_LEN - (CHECKSUM_OFFSET + 4)))

def validateChecksum (bytes : List UInt8) : Result Unit := do
  let incompat ← readU32 bytes 40
  if Checksummed incompat then
    requireLen bytes CHECKSUM_COVERED_LEN
    if bytes.getD CHECKSUM_TYPE_OFFSET 0 ≠ CRC32C_CHECKSUM_TYPE then
      throw .unsupported
    let expected ← readU32 bytes CHECKSUM_OFFSET
    if checksumOf bytes ≠ expected then
      throw .corrupt

def parse (bytes : List UInt8) : Result Jbd2Superblock := do
  requireLen bytes encodedLen
  let header ← Jbd2Header.parse bytes
  if header.blockType ≠ JBD2_BLOCK_SUPERBLOCK_V1 ∧ header.blockType ≠ JBD2_BLOCK_SUPERBLOCK_V2 then
    throw .unsupported
  let blockSize ← readU32 bytes 12
  if blockSize ≠ UInt32.ofNat JBD2_BLOCK_SIZE then
    throw .unsupported
  let maxLen ← readU32 bytes 16
  let first ← readU32 bytes 20
  let start ← readU32 bytes 28
  if maxLen ≤ 1 ∨ first = 0 ∨ maxLen ≤ first then
    throw .corrupt
  if start ≠ 0 ∧ (start < first ∨ maxLen ≤ start) then
    throw .corrupt
  validateChecksum bytes
  let sequence ← readU32 bytes 24
  let uuid ← readArray 16 bytes 48
  return { blockType := header.blockType, blockSize, maxLen, first, sequence, start, uuid }

def writeState (sb : Jbd2Superblock) (page : Page4K) (sequence start : UInt32) : Result Page4K := do
  let observed ← parse page.bytes
  if observed.blockType ≠ sb.blockType ∨ observed.blockSize ≠ sb.blockSize
      ∨ observed.maxLen ≠ sb.maxLen ∨ observed.first ≠ sb.first ∨ observed.uuid ≠ sb.uuid then
    throw .corrupt
  if start ≠ 0 ∧ (start < sb.first ∨ sb.maxLen ≤ start) then
    throw .corrupt
  let page ← writeU32 page 24 sequence
  let page ← writeU32 page 28 start
  let incompat ← readU32 page.bytes 40
  if Checksummed incompat then
    if page.bytes.getD CHECKSUM_TYPE_OFFSET 0 ≠ CRC32C_CHECKSUM_TYPE then
      throw .unsupported
    let page ← writeU32 page CHECKSUM_OFFSET 0
    let checksum := crc32cAppend 0xFFFFFFFF (page.bytes.take CHECKSUM_COVERED_LEN)
    writeU32 page CHECKSUM_OFFSET checksum
  else
    return page

end Jbd2Superblock

/-! ### Descriptor blocks -/

structure Jbd2Tag where
  targetBlock : UInt32
  checksum : UInt16
  uuid : Option Uuid
  escaped : Bool
  deleted : Bool
  sameUuid : Bool
  last : Bool
  deriving DecidableEq

namespace Jbd2Tag

def baseLen : ℕ := 8

def new (targetBlock : UInt32) (checksum : UInt16) (uuid : Option Uuid) (sameUuid : Bool) :
    Jbd2Tag :=
  { targetBlock, checksum, uuid, escaped := false, deleted := false, sameUuid, last := false }

def encodedLen (tag : Jbd2Tag) : ℕ := baseLen + (if tag.sameUuid then 0 else 16)

def flags (tag : Jbd2Tag) : UInt16 :=
  (if tag.escaped then TAG_ESCAPE else 0) ||| (if tag.sameUuid then TAG_SAME_UUID else 0)
    ||| (if tag.deleted then TAG_DELETED else 0) ||| (if tag.last then TAG_LAST else 0)

def encodeLegacy {n : ℕ} (tag : Jbd2Tag) (b : Buf n) : Result (Buf n × ℕ) := do
  if tag.sameUuid ≠ tag.uuid.isNone then
    throw .corrupt
  requireLen b.bytes tag.encodedLen
  let b ← writeU32 b 0 tag.targetBlock
  let b ← writeU16 b 4 tag.checksum
  let b ← writeU16 b 6 tag.flags
  match tag.uuid with
  | none => return (b, tag.encodedLen)
  | some uuid =>
    match b.put baseLen uuid.bytes with
    | some b => return (b, tag.encodedLen)
    | none => throw .truncated

def parseUuid (sameUuid : Bool) (bytes : List UInt8) : Result (Option Uuid) :=
  if sameUuid then .ok none else (readArray 16 bytes baseLen).map some

def parseLegacy (bytes : List UInt8) : Result (Jbd2Tag × ℕ) := do
  requireLen bytes baseLen
  let flags ← readU16 bytes 6
  if flags &&& TAG_UNSUPPORTED ≠ 0 then
    throw .unsupported
  let sameUuid := decide (flags &&& TAG_SAME_UUID ≠ 0)
  let len := baseLen + (if sameUuid then 0 else 16)
  requireLen bytes len
  let uuid ← parseUuid sameUuid bytes
  let targetBlock ← readU32 bytes 0
  let checksum ← readU16 bytes 4
  return ({ targetBlock, checksum, uuid, sameUuid
            escaped := decide (flags &&& TAG_ESCAPE ≠ 0)
            deleted := decide (flags &&& TAG_DELETED ≠ 0)
            last := decide (flags &&& TAG_LAST ≠ 0) }, len)

end Jbd2Tag

structure Jbd2Descriptor where
  header : Jbd2Header
  tags : List Jbd2Tag
  deriving DecidableEq

namespace Jbd2Descriptor

/-- The loop over the tags of a descriptor. A tag takes at least eight bytes, so the length of the
block is fuel enough. -/
def parseTags (bytes : List UInt8) : ℕ → ℕ → Result (List Jbd2Tag)
  | 0, _ => .error .corrupt
  | fuel + 1, offset => do
    if offset = bytes.length ∨ bytes.length < offset then
      throw .corrupt
    let (tag, consumed) ← Jbd2Tag.parseLegacy (bytes.drop offset)
    if tag.last then
      return [tag]
    else
      let tags ← parseTags bytes fuel (offset + consumed)
      return tag :: tags

def parseLegacy (bytes : List UInt8) : Result Jbd2Descriptor := do
  let header ← Jbd2Header.parse bytes
  if header.blockType ≠ JBD2_BLOCK_DESCRIPTOR then
    throw .corrupt
  let tags ← parseTags bytes bytes.length Jbd2Header.encodedLen
  return { header, tags }

/-- The loop that writes the tags, each into what is left of the block. Only the last of them may
be marked as the last. -/
def encodeTags {n : ℕ} : List Jbd2Tag → ℕ → Buf n → Result (Buf n)
  | [], _, b => .ok b
  | tag :: tags, offset, b => do
    if tag.last ≠ tags.isEmpty then
      throw .corrupt
    if h : offset ≤ n then
      let (suffix, written) ← tag.encodeLegacy (b.suffix offset)
      encodeTags tags (offset + written) (b.withSuffix offset suffix h)
    else
      throw .truncated

def encodeLegacy {n : ℕ} (d : Jbd2Descriptor) (_ : Buf n) : Result (Buf n) := do
  if d.header.blockType ≠ JBD2_BLOCK_DESCRIPTOR ∨ d.tags = [] then
    throw .corrupt
  let b ← d.header.encode (Buf.zero n)
  encodeTags d.tags Jbd2Header.encodedLen b

end Jbd2Descriptor

/-! ### Commit blocks -/

structure Jbd2Commit where
  header : Jbd2Header
  checksumType : UInt8
  checksumSize : UInt8
  checksums : List UInt32
  seconds : UInt64
  nanoseconds : UInt32
  deriving DecidableEq

namespace Jbd2Commit

def encodedLen : ℕ := 60

def parse (bytes : List UInt8) : Result Jbd2Commit := do
  requireLen bytes encodedLen
  let header ← Jbd2Header.parse bytes
  if header.blockType ≠ JBD2_BLOCK_COMMIT then
    throw .corrupt
  let checksums ← readU32s bytes 16 8
  let seconds ← readU64 bytes 48
  let nanoseconds ← readU32 bytes 56
  return { header, checksumType := bytes.getD 12 0, checksumSize := bytes.getD 13 0, checksums
           seconds, nanoseconds }

def encode {n : ℕ} (c : Jbd2Commit) (b : Buf n) : Result (Buf n) := do
  if c.header.blockType ≠ JBD2_BLOCK_COMMIT then
    throw .corrupt
  requireLen b.bytes encodedLen
  let b ← c.header.encode (Buf.zero n)
  let b ← writeBe b 12 1 c.checksumType.toNat
  let b ← writeBe b 13 1 c.checksumSize.toNat
  let b ← writeU32s b 16 c.checksums
  let b ← writeU64 b 48 c.seconds
  writeU32 b 56 c.nanoseconds

end Jbd2Commit

/-! ### Revoke blocks -/

structure Jbd2Revoke where
  header : Jbd2Header
  blocks : List UInt32
  deriving DecidableEq

namespace Jbd2Revoke

def headerLen : ℕ := Jbd2Header.encodedLen + 4
def MAX_BLOCKS_PER_PAGE : ℕ := (JBD2_BLOCK_SIZE - headerLen) / 4

def pageCount (blockCount : ℕ) : ℕ := (blockCount + (MAX_BLOCKS_PER_PAGE - 1)) / MAX_BLOCKS_PER_PAGE

def parse (bytes : List UInt8) : Result Jbd2Revoke := do
  requireLen bytes headerLen
  let header ← Jbd2Header.parse bytes
  if header.blockType ≠ JBD2_BLOCK_REVOKE then
    throw .corrupt
  let count ← readU32 bytes Jbd2Header.encodedLen
  if count.toNat < headerLen ∨ bytes.length < count.toNat then
    throw .corrupt
  if (count.toNat - headerLen) % 4 ≠ 0 then
    throw .corrupt
  let blocks ← readU32s bytes headerLen ((count.toNat - headerLen) / 4)
  return { header, blocks }

def encode {n : ℕ} (r : Jbd2Revoke) (b : Buf n) : Result (Buf n) := do
  if r.header.blockType ≠ JBD2_BLOCK_REVOKE then
    throw .corrupt
  if MAX_BLOCKS_PER_PAGE < r.blocks.length then
    throw .outOfBounds
  let count := headerLen + r.blocks.length * 4
  requireLen b.bytes count
  let b ← r.header.encode (Buf.zero n)
  let b ← writeU32 b Jbd2Header.encodedLen (UInt32.ofNat count)
  writeU32s b headerLen r.blocks

end Jbd2Revoke

/-! ### Transactions -/

structure Jbd2MetadataUpdate where
  homeBlock : UInt32
  bytes : Page4K
  deriving DecidableEq

structure Jbd2TransactionImage where
  descriptor : Page4K
  metadataBlocks : List Page4K
  revokes : List Page4K
  commit : Page4K
  deriving DecidableEq

/-- The first four bytes of a page are the magic of the journal's own blocks. -/
def Escaped (page : Page4K) : Prop := page.bytes.take 4 = be 4 JBD2_MAGIC.toNat

instance (page : Page4K) : Decidable (Escaped page) := inferInstanceAs (Decidable (_ = _))

def withHead (page : Page4K) (head : Buf 4) : Page4K :=
  ⟨head.bytes ++ page.bytes.drop 4, by
    rw [List.length_append, List.length_drop, head.length_eq, page.length_eq]⟩

def escape (page : Page4K) : Page4K := if Escaped page then withHead page (Buf.zero 4) else page

/-- `Vec::dedup`: drop what repeats the element before it. -/
def dedupAdjacent : List UInt32 → List UInt32
  | [] => []
  | [a] => [a]
  | a :: b :: l => if a = b then dedupAdjacent (b :: l) else a :: dedupAdjacent (b :: l)

/-- `slice::chunks`: consecutive pieces of `n` elements, the last one possibly shorter. -/
def chunks (n : ℕ) (l : List UInt32) : List (List UInt32) :=
  (List.range ((l.length + (n - 1)) / n)).map fun i => (l.drop (i * n)).take n

namespace Jbd2TransactionImage

def tagOf (uuid : Uuid) (isFirst isLast : Bool) (u : Jbd2MetadataUpdate) : Jbd2Tag :=
  { Jbd2Tag.new u.homeBlock 0 (if isFirst then some uuid else none) (!isFirst) with
    escaped := decide (Escaped u.bytes)
    last := isLast }

def tagsOf (uuid : Uuid) : Bool → List Jbd2MetadataUpdate → List Jbd2Tag
  | _, [] => []
  | isFirst, u :: us => tagOf uuid isFirst us.isEmpty u :: tagsOf uuid false us

def revokedBlocks (revoked : List UInt32) : List UInt32 :=
  dedupAdjacent (revoked.mergeSort fun a b => decide (a ≤ b))

def encodeRevokes (sequence : UInt32) : List (List UInt32) → Result (List Page4K)
  | [] => .ok []
  | blocks :: rest => do
    let page ← Jbd2Revoke.encode { header := Jbd2Header.revoke sequence, blocks } (Buf.zero 4096)
    let pages ← encodeRevokes sequence rest
    return page :: pages

def encodeLegacyWithRevokes (sequence : UInt32) (journalUuid : Uuid)
    (updates : List Jbd2MetadataUpdate) (revoked : List UInt32) : Result Jbd2TransactionImage := do
  if updates = [] then
    throw .corrupt
  let descriptor ← Jbd2Descriptor.encodeLegacy
    { header := Jbd2Header.descriptor sequence, tags := tagsOf journalUuid true updates }
    (Buf.zero 4096 : Page4K)
  let revokes ← encodeRevokes sequence
    (chunks Jbd2Revoke.MAX_BLOCKS_PER_PAGE (revokedBlocks revoked))
  let commit ← Jbd2Commit.encode
    { header := Jbd2Header.commit sequence, checksumType := 0, checksumSize := 0
      checksums := List.replicate 8 0, seconds := 0, nanoseconds := 0 }
    (Buf.zero 4096 : Page4K)
  return { descriptor, metadataBlocks := updates.map fun u => escape u.bytes, revokes, commit }

end Jbd2TransactionImage

end TxKernel.Ext4
