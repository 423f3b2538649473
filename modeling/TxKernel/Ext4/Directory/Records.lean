import Mathlib.Data.List.GetD
import TxKernel.Ext4.LittleEndian

/-!
The records of a directory block, and the iterator over its entries. A record without an inode is
free space; what follows the name in the others is slack.
-/

namespace TxKernel.Ext4.Directory

open Bytes List

def blockSize : ℕ := 4096

/-! ### The iterator -/

structure DirEntry where
  inode : ℕ
  recLen : ℕ
  fileType : UInt8
  name : List UInt8
  deriving DecidableEq

/-- The entries from `off` on. Every record has at least 8 bytes, so there are fewer than `fuel`. -/
def dirEntriesFrom (data : List UInt8) : ℕ → ℕ → Result (List DirEntry)
  | 0, _ => .ok []
  | fuel + 1, off =>
    if data.length ≤ off then .ok []
    else if data.length - off < 8 then .error .truncated
    else do
      let recLen ← readLe 2 data (off + 4)
      if recLen = 0 then return []
      else if recLen < 8 ∨ data.length < off + recLen then throw .corrupt
      else
        let inode ← readLe 4 data off
        if inode = 0 then dirEntriesFrom data fuel (off + recLen)
        else
          let nameLen := (data.getD (off + 6) 0).toNat
          if recLen - 8 < nameLen then throw .corrupt
          else
            let entries ← dirEntriesFrom data fuel (off + recLen)
            return ⟨inode, recLen, data.getD (off + 7) 0, (data.drop (off + 8)).take nameLen⟩ ::
              entries

def dirEntries (data : List UInt8) : Result (List DirEntry) := dirEntriesFrom data data.length 0

def encodeDirEntry (inode recLen : ℕ) (fileType : UInt8) (name out : List UInt8) :
    Result (List UInt8) :=
  if 255 < name.length ∨ out.length < recLen ∨ recLen < 8 + name.length then .error .outOfBounds
  else
    .ok (splice out 0 (le 4 inode ++ le 2 recLen ++ [UInt8.ofNat name.length, fileType] ++ name ++
      List.replicate (recLen - 8 - name.length) 0))

/-! ### Records -/

structure Record where
  inode : ℕ
  nameLen : UInt8
  fileType : UInt8
  body : List UInt8
  deriving DecidableEq

namespace Record

def recLen (r : Record) : ℕ := 8 + r.body.length

def bytes (r : Record) : List UInt8 :=
  le 4 r.inode ++ le 2 r.recLen ++ [r.nameLen, r.fileType] ++ r.body

def name (r : Record) : List UInt8 := r.body.take r.nameLen.toNat

def sizeFor (nameLen : ℕ) : ℕ := (8 + nameLen + 3) / 4 * 4

def used (r : Record) : ℕ := sizeFor r.nameLen.toNat

/-- Records are aligned, and a name stands inside its record. -/
structure WellFormed (r : Record) : Prop where
  inode_lt : r.inode < 2 ^ 32
  le_recLen : 12 ≤ r.recLen
  aligned : 4 ∣ r.recLen
  named : r.inode ≠ 0 → 0 < r.nameLen.toNat ∧ r.nameLen.toNat ≤ r.body.length

def entry? (r : Record) : Option DirEntry :=
  if r.inode = 0 then none else some ⟨r.inode, r.recLen, r.fileType, r.name⟩

@[simp] lemma length_bytes (r : Record) : r.bytes.length = r.recLen := by
  simp [bytes, recLen]
  omega

end Record

def layout (rs : List Record) : List UInt8 := rs.flatMap Record.bytes

@[simp] lemma layout_nil : layout [] = [] := rfl

@[simp] lemma layout_cons (r : Record) (rs : List Record) :
    layout (r :: rs) = r.bytes ++ layout rs :=
  rfl

@[simp] lemma layout_append (rs rs' : List Record) : layout (rs ++ rs') = layout rs ++ layout rs' :=
  flatMap_append

def size (rs : List Record) : ℕ := (rs.map Record.recLen).sum

@[simp] lemma size_nil : size [] = 0 := rfl

@[simp] lemma size_cons (r : Record) (rs : List Record) : size (r :: rs) = r.recLen + size rs := by
  simp [size]

@[simp] lemma size_append (rs rs' : List Record) : size (rs ++ rs') = size rs + size rs' := by
  simp [size]

@[simp] lemma length_layout (rs : List Record) : (layout rs).length = size rs := by
  induction rs with
  | nil => rfl
  | cons r rs ih => simp [ih]

/-- The records fill a block. -/
structure Tiled (rs : List Record) : Prop where
  wellFormed : ∀ r ∈ rs, r.WellFormed
  full : size rs = blockSize

def entries (rs : List Record) : List DirEntry := rs.filterMap Record.entry?

/-! ### Fields of a record in its block -/

section fields

variable {pre post data : List UInt8} {r : Record} {off : ℕ}

section

variable (hdata : data = pre ++ r.bytes ++ post) (hoff : pre.length = off)
include hdata hoff

lemma readLe_recLen (hlen : r.recLen < 2 ^ 16) : readLe 2 data (off + 4) = .ok r.recLen := by
  have := readLe_append (pre ++ le 4 r.inode) ([r.nameLen, r.fileType] ++ r.body ++ post)
    (by simp [hoff] : _ = off + 4) (show r.recLen < 256 ^ 2 by omega)
  rw [hdata, Record.bytes]
  simpa using this

lemma readLe_inode (hinode : r.inode < 2 ^ 32) : readLe 4 data off = .ok r.inode := by
  have := readLe_append pre (le 2 r.recLen ++ [r.nameLen, r.fileType] ++ r.body ++ post) hoff
    (show r.inode < 256 ^ 4 by omega)
  rw [hdata, Record.bytes]
  simpa using this

lemma getD_nameLen : data.getD (off + 6) 0 = r.nameLen := by
  have hsplit : data = (pre ++ le 4 r.inode ++ le 2 r.recLen) ++
      (r.nameLen :: r.fileType :: (r.body ++ post)) := by simp [hdata, Record.bytes]
  rw [hsplit, getD_append_right _ _ _ _ (by simp; omega)]
  simp [hoff]

lemma getD_fileType : data.getD (off + 7) 0 = r.fileType := by
  have hsplit : data = (pre ++ le 4 r.inode ++ le 2 r.recLen ++ [r.nameLen]) ++
      (r.fileType :: (r.body ++ post)) := by simp [hdata, Record.bytes]
  rw [hsplit, getD_append_right _ _ _ _ (by simp; omega)]
  simp [hoff]

lemma drop_body : data.drop (off + 8) = r.body ++ post := by
  have hsplit : data = (pre ++ le 4 r.inode ++ le 2 r.recLen ++ [r.nameLen, r.fileType]) ++
      (r.body ++ post) := by simp [hdata, Record.bytes]
  rw [hsplit, drop_left' (by simp [hoff])]

end

end fields

/-! ### The iterator on a row of records -/

variable {rs : List Record}

lemma length_le_size (h : ∀ r ∈ rs, r.WellFormed) : 12 * rs.length ≤ size rs := by
  induction rs with
  | nil => simp
  | cons r rs ih =>
    have := (h r (.head _)).le_recLen
    have := ih fun r' h' => h r' (.tail _ h')
    rw [size_cons, length_cons]
    omega

lemma dirEntriesFrom_layout (pre : List UInt8) (rs : List Record) (h : ∀ r ∈ rs, r.WellFormed)
    (hsize : size rs < 2 ^ 16) (fuel : ℕ) (hfuel : rs.length ≤ fuel) :
    dirEntriesFrom (pre ++ layout rs) fuel pre.length = .ok (entries rs) := by
  induction rs generalizing pre fuel with
  | nil =>
    cases fuel with
    | zero => rfl
    | succ fuel => simp [dirEntriesFrom, entries]
  | cons r rs ih =>
    rcases fuel with _ | fuel
    · simp at hfuel
    have hr := h r (.head _)
    have hlen := hr.le_recLen
    rw [size_cons] at hsize
    have hdata : pre ++ layout (r :: rs) = pre ++ r.bytes ++ layout rs := by simp
    have hnext := ih (pre ++ r.bytes) (fun r' h' => h r' (.tail _ h')) (by omega) fuel
      (by simpa using hfuel)
    rw [length_append, Record.length_bytes, ← hdata] at hnext
    have htotal : (pre ++ layout (r :: rs)).length = pre.length + (r.recLen + size rs) := by simp
    have hbody : (pre ++ layout (r :: rs)).drop (pre.length + 8) = r.body ++ layout rs :=
      drop_body hdata rfl
    rw [dirEntriesFrom, if_neg (by omega), if_neg (by omega), readLe_recLen hdata rfl (by omega)]
    simp only [ok_bind]
    rw [if_neg (by omega), if_neg (by omega), readLe_inode hdata rfl hr.inode_lt]
    simp only [ok_bind]
    by_cases hinode : r.inode = 0
    · rw [if_pos hinode, hnext]
      simp [entries, Record.entry?, hinode]
    have hname := (hr.named hinode).2
    have hnameLen : ¬ r.recLen - 8 < r.nameLen.toNat := by
      simp only [Record.recLen]
      omega
    rw [if_neg hinode, getD_nameLen hdata rfl, if_neg hnameLen, hnext, hbody,
      getD_fileType hdata rfl, take_append_of_le_length hname]
    simp [entries, Record.entry?, hinode, Record.name]

theorem Tiled.dirEntries (h : Tiled rs) : dirEntries (layout rs) = .ok (entries rs) := by
  have hfull := h.full
  have hsize : size rs < 2 ^ 16 := by
    rw [hfull]
    decide
  have := length_le_size h.wellFormed
  have := dirEntriesFrom_layout [] rs h.wellFormed hsize (layout rs).length
    (by rw [length_layout]; omega)
  simpa [Directory.dirEntries] using this

end TxKernel.Ext4.Directory
