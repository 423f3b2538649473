import TxKernel.Ext4.Directory.Records

/-!
The edits of one directory block, each a scan over its bytes: the checksum tail, the insertion of an
entry into free space, its removal, and the replacement of its inode.
-/

namespace TxKernel.Ext4.Directory

open Bytes

/-! ### The checksum tail -/

def dirblockCsum32 (seed : UInt32) (inode generation : ℕ) (block : List UInt8) : UInt32 :=
  crc32cAppend (crc32cAppend (crc32cAppend seed (le 4 inode)) (le 4 generation)) block

structure DirContext where
  seed : Option UInt32
  inode : ℕ
  generation : ℕ

def dirCsumType : UInt8 := 0xDE

def tailOffset : ℕ := blockSize - 12

def shortenLast (block : List UInt8) : ℕ → ℕ → Result (List UInt8)
  | 0, _ => .ok block
  | fuel + 1, off =>
    if off + 8 ≤ blockSize then do
      let recLen ← readLe 2 block (off + 4)
      if recLen = 0 then return block
      else if recLen < 8 ∨ blockSize < off + recLen then throw .corrupt
      else if off < tailOffset ∧ off + recLen = blockSize then
        if recLen < 12 then throw .corrupt
        else if recLen - 12 < Record.sizeFor (block.getD (off + 6) 0).toNat then throw .unsupported
        else return splice block (off + 4) (le 2 (recLen - 12))
      else if off = tailOffset then return block
      else shortenLast block fuel (off + recLen)
    else .ok block

def ensureDirblockChecksumTail (block : List UInt8) : Result (List UInt8) := do
  let recLen ← readLe 2 block (tailOffset + 4)
  if slice block tailOffset 4 = some [0, 0, 0, 0] ∧ recLen = 12 ∧
      block.getD (tailOffset + 6) 0 = 0 ∧ block.getD (tailOffset + 7) 0 = dirCsumType then
    return block
  else
    let block ← shortenLast block blockSize 0
    return splice block tailOffset
      ([0, 0, 0, 0] ++ le 2 12 ++ [0, dirCsumType] ++ [0, 0, 0, 0])

def refreshDirblockChecksum (c : DirContext) (block : List UInt8) : Result (List UInt8) :=
  match c.seed with
  | none => .ok block
  | some seed => do
    let block ← ensureDirblockChecksumTail block
    let checksum := dirblockCsum32 seed c.inode c.generation (block.take tailOffset)
    return splice block (blockSize - 4) (le 4 checksum.toNat)

/-! ### Scans -/

/-- Find room for an entry. An entry of the same name before it is an error. -/
def appendIn (name : List UInt8) (newInode : ℕ) (fileType : UInt8) (page : List UInt8) :
    ℕ → ℕ → Result (Option (List UInt8))
  | 0, _ => .ok none
  | fuel + 1, off =>
    if off + 8 ≤ blockSize then do
      let recLen ← readLe 2 page (off + 4)
      if recLen = 0 ∨ blockSize < off + recLen then return none
      else
        let inode ← readLe 4 page off
        if inode = 0 then
          if Record.sizeFor name.length ≤ recLen then
            let slot ← encodeDirEntry newInode recLen fileType name ((page.drop off).take recLen)
            return some (splice page off slot)
          else appendIn name newInode fileType page fuel (off + recLen)
        else
          let nameLen := (page.getD (off + 6) 0).toNat
          if off + 8 + nameLen ≤ blockSize ∧ nameLen = name.length ∧
              (page.drop (off + 8)).take nameLen = name then throw .unsupported
          else
            let used := Record.sizeFor nameLen
            let free := recLen - used
            if Record.sizeFor name.length ≤ free then
              let page := splice page (off + 4) (le 2 used)
              let slot ← encodeDirEntry newInode free fileType name
                ((page.drop (off + used)).take free)
              return some (splice page (off + used) slot)
            else appendIn name newInode fileType page fuel (off + recLen)
    else .ok none

/-- Find the entry of a name and remove it: its record becomes slack of the one before it, or free
space if it is the first. -/
def removeIn (name : List UInt8) (page : List UInt8) :
    ℕ → Option ℕ → ℕ → Result (Option (ℕ × List UInt8))
  | 0, _, _ => .ok none
  | fuel + 1, prev, off =>
    if off + 8 ≤ blockSize then do
      let recLen ← readLe 2 page (off + 4)
      if recLen = 0 ∨ blockSize < off + recLen then return none
      else
        let inode ← readLe 4 page off
        let nameLen := (page.getD (off + 6) 0).toNat
        if inode ≠ 0 ∧ off + 8 + nameLen ≤ blockSize ∧ nameLen = name.length ∧
            (page.drop (off + 8)).take nameLen = name then
          match prev with
          | some prev =>
            let prevLen ← readLe 2 page (prev + 4)
            return some (inode, splice page (prev + 4) (le 2 (prevLen + recLen)))
          | none => return some (inode, splice page off (List.replicate 4 0))
        else removeIn name page fuel (some off) (off + recLen)
    else .ok none

def replaceIn (name : List UInt8) (expected replacement : ℕ) (page : List UInt8) :
    ℕ → ℕ → Result (Option (List UInt8))
  | 0, _ => .ok none
  | fuel + 1, off =>
    if off + 8 ≤ blockSize then do
      let recLen ← readLe 2 page (off + 4)
      if recLen = 0 ∨ blockSize < off + recLen then return none
      else
        let inode ← readLe 4 page off
        let nameLen := (page.getD (off + 6) 0).toNat
        if inode = 0 then replaceIn name expected replacement page fuel (off + recLen)
        else if blockSize < off + 8 + nameLen then throw .corrupt
        else if nameLen = name.length ∧ (page.drop (off + 8)).take nameLen = name then
          if inode ≠ expected then throw .corrupt
          else if page.getD (off + 7) 0 = 2 then throw .unsupported
          else return some (splice page off (le 4 replacement))
        else replaceIn name expected replacement page fuel (off + recLen)
    else .ok none

end TxKernel.Ext4.Directory
