import Mathlib.Data.List.Sort
import TxKernel.Ext4.LittleEndian

/-!
Extent trees: how a file's logical blocks map to blocks of the device. Of two entries of one logical
block the sort of the source may put either first; here it is the one that stands first.
-/

namespace TxKernel.Ext4

open Bytes List

/-! ### Nodes -/

inductive BlockMapping
  | data (block : ℕ)
  | hole
  | needNode (block : ℕ)
  deriving DecidableEq

structure ExtentHeader where
  entries : ℕ
  max : ℕ
  depth : ℕ
  generation : ℕ
  deriving DecidableEq

def extentMagic : ℕ := 0xF30A

def ExtentHeader.parse (bytes : List UInt8) : Result ExtentHeader := do
  requireLen bytes 12
  let magic ← readLe 2 bytes 0
  if magic ≠ extentMagic then throw .badMagic
  let header : ExtentHeader :=
    ⟨← readLe 2 bytes 2, ← readLe 2 bytes 4, ← readLe 2 bytes 6, ← readLe 4 bytes 8⟩
  if header.entries > header.max then throw .corrupt
  return header

structure Extent where
  logicalBlock : ℕ
  len : ℕ
  physicalStart : ℕ
  deriving DecidableEq

structure ExtentIdx where
  logicalBlock : ℕ
  child : ℕ
  deriving DecidableEq

namespace Extent

def uninitializedMask : ℕ := 0x8000

def parse (bytes : List UInt8) : Result Extent := do
  requireLen bytes 12
  let logicalBlock ← readLe 4 bytes 0
  let len ← readLe 2 bytes 4
  let low ← readLe 4 bytes 8
  let high ← readLe 2 bytes 6
  return ⟨logicalBlock, len, low + high * 2 ^ 32⟩

/-- The number of blocks. The largest initialized extent has exactly `uninitializedMask` blocks. -/
def actualLen (e : Extent) : ℕ :=
  if e.len ≤ uninitializedMask then e.len else e.len - uninitializedMask

def isInitialized (e : Extent) : Bool := e.len ≤ uninitializedMask

/-- The end of the extent saturates at the largest block number. -/
def contains (e : Extent) (logicalBlock : ℕ) : Bool :=
  e.logicalBlock ≤ logicalBlock ∧ logicalBlock < min (e.logicalBlock + e.actualLen) (2 ^ 32 - 1)

def physicalFor (e : Extent) (logicalBlock : ℕ) : Option ℕ :=
  if e.contains logicalBlock && e.isInitialized then
    some (e.physicalStart + (logicalBlock - e.logicalBlock))
  else none

end Extent

def ExtentIdx.parse (bytes : List UInt8) : Result ExtentIdx := do
  requireLen bytes 12
  let logicalBlock ← readLe 4 bytes 0
  let low ← readLe 4 bytes 4
  let high ← readLe 2 bytes 8
  return ⟨logicalBlock, low + high * 2 ^ 32⟩

inductive ExtentNode
  | leaf (extents : List Extent)
  | index (indexes : List ExtentIdx)
  deriving DecidableEq

def readEntries {α : Type} (parse : List UInt8 → Result α) (bytes : List UInt8) :
    ℕ → ℕ → Result (List α)
  | _, 0 => .ok []
  | off, k + 1 => do
    let entry ← parse (← sliceAt bytes off 12)
    let entries ← readEntries parse bytes (off + 12) k
    return entry :: entries

def ExtentNode.parse (bytes : List UInt8) : Result ExtentNode := do
  let header ← ExtentHeader.parse bytes
  if header.depth = 0 then
    let extents ← readEntries Extent.parse bytes 12 header.entries
    return .leaf (extents.insertionSort fun a b => a.logicalBlock ≤ b.logicalBlock)
  else
    let indexes ← readEntries ExtentIdx.parse bytes 12 header.entries
    return .index (indexes.insertionSort fun a b => a.logicalBlock ≤ b.logicalBlock)

/-- Where a block is, as far as one node tells. -/
def ExtentNode.map (logicalBlock : ℕ) : ExtentNode → BlockMapping
  | .leaf extents =>
    match extents.findSome? fun e => e.physicalFor logicalBlock with
    | some block => .data block
    | none => .hole
  | .index indexes =>
    match (indexes.takeWhile fun i => i.logicalBlock ≤ logicalBlock).getLast? <|> indexes.head? with
    | some i => .needNode i.child
    | none => .hole

def mapExtentRoot (root : List UInt8) (logicalBlock : ℕ) : Result BlockMapping :=
  (ExtentNode.parse root).map (ExtentNode.map logicalBlock)

/-! ### What is read from a node -/

variable {bytes : List UInt8}

lemma Extent.parse_bound {e : Extent} (h : Extent.parse bytes = .ok e) :
    e.logicalBlock < 2 ^ 32 ∧ e.physicalStart < 2 ^ 48 := by
  unfold Extent.parse at h
  simp only [bind_eq_ok, pure_eq_ok, Except.ok.injEq] at h
  obtain ⟨-, -, logicalBlock, hl, len, -, low, hlow, high, hhigh, rfl⟩ := h
  have hl := readLe_lt hl
  have hlow := readLe_lt hlow
  have hhigh := readLe_lt hhigh
  exact ⟨by omega, by dsimp only; omega⟩

lemma ExtentIdx.parse_bound {i : ExtentIdx} (h : ExtentIdx.parse bytes = .ok i) :
    i.child < 2 ^ 48 := by
  unfold ExtentIdx.parse at h
  simp only [bind_eq_ok, pure_eq_ok, Except.ok.injEq] at h
  obtain ⟨-, -, logicalBlock, -, low, hlow, high, hhigh, rfl⟩ := h
  have hlow := readLe_lt hlow
  have hhigh := readLe_lt hhigh
  dsimp only
  omega

lemma readEntries_forall {α : Type} {parse : List UInt8 → Result α} {P : α → Prop}
    (hparse : ∀ bytes a, parse bytes = .ok a → P a) {off k : ℕ} {l : List α}
    (h : readEntries parse bytes off k = .ok l) : ∀ a ∈ l, P a := by
  induction k generalizing off l with
  | zero => simp_all [readEntries]
  | succ k ih =>
    simp only [readEntries, bind_eq_ok, pure_eq_ok, Except.ok.injEq] at h
    obtain ⟨d, -, entry, hentry, entries, hentries, rfl⟩ := h
    intro a ha
    rcases mem_cons.mp ha with rfl | ha
    · exact hparse d a hentry
    · exact ih hentries a ha

/-- Block numbers on disk have 48 bits. -/
def BlockMapping.Fits : BlockMapping → Prop
  | .data block => block < 2 ^ 49
  | .hole => True
  | .needNode block => block < 2 ^ 49

variable {logicalBlock : ℕ}

lemma ExtentNode.map_leaf_fits {extents : List Extent} (hlb : logicalBlock < 2 ^ 32)
    (h : ∀ e ∈ extents, e.physicalStart < 2 ^ 48) :
    ((ExtentNode.leaf extents).map logicalBlock).Fits := by
  simp only [ExtentNode.map]
  cases hfind : extents.findSome? fun e => e.physicalFor logicalBlock with
  | none => trivial
  | some block =>
    obtain ⟨e, he, hphys⟩ := exists_of_findSome?_eq_some hfind
    have hstart := h e he
    unfold Extent.physicalFor at hphys
    split_ifs at hphys
    obtain rfl := Option.some.inj hphys
    change e.physicalStart + (logicalBlock - e.logicalBlock) < 2 ^ 49
    omega

lemma ExtentNode.map_index_fits {indexes : List ExtentIdx} (h : ∀ i ∈ indexes, i.child < 2 ^ 48) :
    ((ExtentNode.index indexes).map logicalBlock).Fits := by
  simp only [ExtentNode.map]
  cases hlast : (indexes.takeWhile fun i => i.logicalBlock ≤ logicalBlock).getLast? with
  | some i =>
    have hi := h i ((takeWhile_sublist _).subset (mem_of_getLast? hlast))
    exact Nat.lt_trans hi (by decide)
  | none =>
    cases indexes with
    | nil => trivial
    | cons i indexes => exact Nat.lt_trans (h i (.head _)) (by decide)

lemma mapExtentRoot_fits {m : BlockMapping} (hlb : logicalBlock < 2 ^ 32)
    (h : mapExtentRoot bytes logicalBlock = .ok m) : m.Fits := by
  unfold mapExtentRoot at h
  cases hnode : ExtentNode.parse bytes with
  | error e => simp [hnode, Except.map] at h
  | ok node =>
    simp only [hnode, Except.map, Except.ok.injEq] at h
    subst h
    unfold ExtentNode.parse at hnode
    simp only [bind_eq_ok] at hnode
    obtain ⟨header, -, hnode⟩ := hnode
    split_ifs at hnode
    · simp only [bind_eq_ok, pure_eq_ok, Except.ok.injEq] at hnode
      obtain ⟨extents, hextents, rfl⟩ := hnode
      have hbound := readEntries_forall (fun _ _ => Extent.parse_bound) hextents
      exact ExtentNode.map_leaf_fits hlb fun e he => (hbound e ((mem_insertionSort _).mp he)).2
    · simp only [bind_eq_ok, pure_eq_ok, Except.ok.injEq] at hnode
      obtain ⟨indexes, hindexes, rfl⟩ := hnode
      have hbound := readEntries_forall (fun _ _ => ExtentIdx.parse_bound) hindexes
      exact ExtentNode.map_index_fits fun i hi => hbound i ((mem_insertionSort _).mp hi)

lemma ExtentHeader.parse_append {l l' : List UInt8} (h : l.length = 12) :
    ExtentHeader.parse (l ++ l') = ExtentHeader.parse l := by
  have hlen : requireLen (l ++ l') 12 = requireLen l 12 := by
    rw [requireLen_of_le (by simp; omega), requireLen_of_le (by omega)]
  have hread (w off : ℕ) (hle : off + w ≤ 12) : readLe w (l ++ l') off = readLe w l off := by
    simp only [readLe, sliceAt, slice_append_left (show off + w ≤ l.length by omega)]
  simp only [ExtentHeader.parse, hlen, hread 2 0 (by decide), hread 2 2 (by decide),
    hread 2 4 (by decide), hread 2 6 (by decide), hread 4 8 (by decide)]

lemma mapExtentRoot_isOk (bytes : List UInt8) (a b : ℕ) :
    (mapExtentRoot bytes a).isOk = (mapExtentRoot bytes b).isOk := by
  unfold mapExtentRoot
  cases ExtentNode.parse bytes <;> rfl

lemma mapExtentRoot_zeros (n logicalBlock : ℕ) (m : BlockMapping) :
    mapExtentRoot (replicate n 0) logicalBlock ≠ .ok m := by
  intro h
  unfold mapExtentRoot at h
  cases hnode : ExtentNode.parse (replicate n 0) with
  | error e => simp [hnode, Except.map] at h
  | ok node =>
    simp only [ExtentNode.parse, ExtentHeader.parse, bind_eq_ok, check_eq_ok] at hnode
    obtain ⟨header, ⟨-, -, magic, hmagic, hcheck, -⟩, -⟩ := hnode
    rw [readLe_zeros hmagic] at hcheck
    exact hcheck (by decide)

end TxKernel.Ext4
