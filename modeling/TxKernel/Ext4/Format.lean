import Mathlib.Logic.Function.Basic
import TxKernel.Library.Bytes

/-!
What all ext4 format code shares: errors, 4096-byte pages, big-endian fields, CRC32C, and the block
image of recovery with the operations it was asked for. Its reads and writes succeed; its cache is
not modelled.
-/

namespace TxKernel.Ext4

open Bytes List Function

inductive Ext4FormatError
  | badMagic
  | corrupt
  | outOfBounds
  | truncated
  | unsupported
  | wouldBlock
  deriving DecidableEq

abbrev Result (α : Type) := Except Ext4FormatError α

section results

variable {ε α β : Type} {x : Except ε α} {f : α → Except ε β} {b : β}

@[simp] lemma ok_bind (a : α) (f : α → Except ε β) : (Except.ok a >>= f) = f a := rfl

@[simp] lemma error_bind (e : ε) (f : α → Except ε β) : (Except.error e >>= f) = .error e := rfl

@[simp] lemma pure_eq_ok (a : α) : (pure a : Except ε α) = .ok a := rfl

@[simp] lemma throw_eq_error (e : ε) : (throw e : Except ε α) = .error e := rfl

lemma bind_eq_ok : x >>= f = .ok b ↔ ∃ a, x = .ok a ∧ f a = .ok b := by
  rcases x with e | a
  · simp
  · simp

lemma exists_ok (h : x.isOk = true) : ∃ a, x = .ok a := by
  rcases x with e | a
  · cases h
  · exact ⟨a, rfl⟩

lemma check_eq_ok {c : Prop} [Decidable c] {e : ε} {x : Except ε β} :
    (if c then (throw e >>= f) else x) = .ok b ↔ ¬ c ∧ x = .ok b := by
  by_cases h : c
  · simp [h]
  · simp [h]

end results

abbrev Page4K := Buf 4096

/-! ### Big-endian fields -/

def requireLen (bytes : List UInt8) (len : ℕ) : Result Unit :=
  if bytes.length < len then .error .truncated else .ok ()

def readBe (w : ℕ) (bytes : List UInt8) (off : ℕ) : Result ℕ :=
  match slice bytes off w with
  | some d => .ok (ofBe d)
  | none => .error .truncated

def writeBe {n : ℕ} (b : Buf n) (off w v : ℕ) : Result (Buf n) :=
  match b.put off (be w v) with
  | some b' => .ok b'
  | none => .error .truncated

def readU16 (bytes : List UInt8) (off : ℕ) : Result UInt16 := (readBe 2 bytes off).map UInt16.ofNat
def readU32 (bytes : List UInt8) (off : ℕ) : Result UInt32 := (readBe 4 bytes off).map UInt32.ofNat
def readU64 (bytes : List UInt8) (off : ℕ) : Result UInt64 := (readBe 8 bytes off).map UInt64.ofNat

def readArray (w : ℕ) (bytes : List UInt8) (off : ℕ) : Result (Buf w) :=
  if h : off + w ≤ bytes.length then
    .ok ⟨(bytes.drop off).take w, by rw [length_take, length_drop]; omega⟩
  else .error .truncated

def writeU16 {n : ℕ} (b : Buf n) (off : ℕ) (v : UInt16) : Result (Buf n) := writeBe b off 2 v.toNat
def writeU32 {n : ℕ} (b : Buf n) (off : ℕ) (v : UInt32) : Result (Buf n) := writeBe b off 4 v.toNat
def writeU64 {n : ℕ} (b : Buf n) (off : ℕ) (v : UInt64) : Result (Buf n) := writeBe b off 8 v.toNat

def writeU32s {n : ℕ} (b : Buf n) (off : ℕ) : List UInt32 → Result (Buf n)
  | [] => .ok b
  | v :: vs => do
    let b ← writeU32 b off v
    writeU32s b (off + 4) vs

def readU32s (bytes : List UInt8) (off : ℕ) : ℕ → Result (List UInt32)
  | 0 => .ok []
  | k + 1 => do
    let v ← readU32 bytes off
    let vs ← readU32s bytes (off + 4) k
    return v :: vs

section fields

variable {n off : ℕ} {b : Buf n} {bytes pre post : List UInt8} {len w v : ℕ}

lemma requireLen_of_le (h : len ≤ bytes.length) : requireLen bytes len = .ok () :=
  if_neg (by omega)

lemma le_of_requireLen {u : Unit} (h : requireLen bytes len = .ok u) : len ≤ bytes.length := by
  by_contra hlt
  rw [requireLen, if_pos (by omega)] at h
  cases h

lemma readBe_of_slice (h : slice bytes off w = some (be w v)) :
    readBe w bytes off = .ok (v % 256 ^ w) := by
  rw [readBe, h, ← ofBe_be]

lemma readU32_of_slice {v : UInt32} (h : slice bytes off 4 = some (be 4 v.toNat)) :
    readU32 bytes off = .ok v := by
  simp [readU32, readBe_of_slice h, Except.map]

section

variable (pre post : List UInt8)

lemma readU16_append (v : UInt16) (h : pre.length = off) :
    readU16 (pre ++ be 2 v.toNat ++ post) off = .ok v := by
  rw [readU16, readBe_of_slice (slice_append h (length_be 2 _))]
  simp [Except.map]

lemma readU32_append (v : UInt32) (h : pre.length = off) :
    readU32 (pre ++ be 4 v.toNat ++ post) off = .ok v :=
  readU32_of_slice (slice_append h (length_be 4 _))

lemma readU64_append (v : UInt64) (h : pre.length = off) :
    readU64 (pre ++ be 8 v.toNat ++ post) off = .ok v := by
  rw [readU64, readBe_of_slice (slice_append h (length_be 8 _))]
  simp [Except.map]

end

lemma readArray_of_slice {a : Buf w} (h : slice bytes off w = some a.bytes) :
    readArray w bytes off = .ok a := by
  by_cases hle : off + w ≤ bytes.length
  · rw [slice_of_le hle, Option.some_inj] at h
    rw [readArray, dif_pos hle, Except.ok.injEq]
    exact Buf.ext h
  · simp [slice, hle] at h

def u32At (bytes : List UInt8) (off : ℕ) : UInt32 := UInt32.ofNat (ofBe ((bytes.drop off).take 4))

lemma readU32_of_le (h : off + 4 ≤ bytes.length) : readU32 bytes off = .ok (u32At bytes off) := by
  simp [readU32, readBe, slice_of_le h, u32At, Except.map]

lemma u32At_eq_of_slice {v : UInt32} (h : slice bytes off 4 = some (be 4 v.toNat)) :
    u32At bytes off = v := by
  have hle : off + 4 ≤ bytes.length := by
    by_contra hlt
    simp [slice, hlt] at h
  have := readU32_of_slice h
  rwa [readU32_of_le hle, Except.ok.injEq] at this

lemma u32At_splice_self (v : UInt32) (h : off + 4 ≤ bytes.length) :
    u32At (splice bytes off (be 4 v.toNat)) off = v :=
  u32At_eq_of_slice (slice_append (by simp; omega) (by simp))

lemma u32At_splice_of_disjoint {off' : ℕ} {d : List UInt8} (h : off + d.length ≤ bytes.length)
    (hd : off' + 4 ≤ off ∨ off + d.length ≤ off') (hle : off' + 4 ≤ bytes.length) :
    u32At (splice bytes off d) off' = u32At bytes off' := by
  have hslice := slice_splice_of_disjoint h hd
  rw [slice_of_le (by rwa [length_splice h]), slice_of_le hle, Option.some_inj] at hslice
  rw [u32At, u32At, hslice]

def u32Bytes (vs : List UInt32) : List UInt8 := vs.flatMap fun v => be 4 v.toNat

@[simp] lemma length_u32Bytes (vs : List UInt32) : (u32Bytes vs).length = 4 * vs.length := by
  induction vs with
  | nil => rfl
  | cons v vs ih => simp [u32Bytes, flatMap_cons, mul_add, add_comm] at ih ⊢; omega

lemma readU32s_append (pre post : List UInt8) (vs : List UInt32) (h : pre.length = off) :
    readU32s (pre ++ u32Bytes vs ++ post) off vs.length = .ok vs := by
  induction vs generalizing pre off with
  | nil => rfl
  | cons v vs ih =>
    have hv := readU32_append _ (u32Bytes vs ++ post) v h
    have hvs := ih (pre ++ be 4 v.toNat) (by simp [h] : _ = off + 4)
    have hbytes : pre ++ u32Bytes (v :: vs) ++ post =
        pre ++ be 4 v.toNat ++ (u32Bytes vs ++ post) := by
      simp [u32Bytes]
    rw [hbytes, length_cons, readU32s, hv]
    rw [append_assoc] at hvs
    simp only [bind, Except.bind, hvs]
    rfl

lemma writeBe_of_put {b' : Buf n} (h : b.put off (be w v) = some b') :
    writeBe b off w v = .ok b' := by
  rw [writeBe, h]

lemma filled_writeBe (h : b.Filled pre) (off : ℕ) (hoff : pre.length = off) (w v : ℕ)
    (hn : off + w ≤ n) :
    ∃ b', writeBe b off w v = .ok b' ∧ b'.Filled (pre ++ be w v) := by
  obtain ⟨b', hput, hb'⟩ := h.put off hoff (d := be w v) (by simpa)
  exact ⟨b', writeBe_of_put hput, hb'⟩

lemma filled_writeU32s (h : b.Filled pre) (off : ℕ) (hoff : pre.length = off) (vs : List UInt32)
    (hn : off + 4 * vs.length ≤ n) :
    ∃ b', writeU32s b off vs = .ok b' ∧ b'.Filled (pre ++ u32Bytes vs) := by
  induction vs generalizing b pre off with
  | nil => exact ⟨b, rfl, by simpa [u32Bytes] using h⟩
  | cons v vs ih =>
    rw [length_cons] at hn
    obtain ⟨b₁, hw₁, hb₁⟩ := filled_writeBe h _ hoff 4 v.toNat (by omega)
    obtain ⟨b₂, hw₂, hb₂⟩ := ih hb₁ (off + 4) (by simp [hoff]) (by omega)
    refine ⟨b₂, ?_, ?_⟩
    · rw [writeU32s, writeU32, hw₁]
      exact hw₂
    · simpa [u32Bytes] using hb₂

lemma writeU32_of_le (b : Buf n) (off : ℕ) (v : UInt32) (h : off + 4 ≤ n) :
    ∃ b', writeU32 b off v = .ok b' ∧ b'.bytes = splice b.bytes off (be 4 v.toNat) := by
  obtain ⟨b', hput, hb'⟩ := Buf.put_of_le b off (be 4 v.toNat) (by simpa)
  exact ⟨b', writeBe_of_put hput, hb'⟩

end fields

/-! ### Checksums -/

def crc32cByte (crc : UInt32) (byte : UInt8) : UInt32 :=
  (List.range 8).foldl (fun crc _ => (crc >>> 1) ^^^ (0x82F63B78 &&& (0 - (crc &&& 1))))
    (crc ^^^ byte.toUInt32)

def crc32cAppend (crc : UInt32) (bytes : List UInt8) : UInt32 := bytes.foldl crc32cByte crc

def crc32c (seed : UInt32) (bytes : List UInt8) : UInt32 := ~~~ crc32cAppend (~~~ seed) bytes

lemma crc32cAppend_append (crc : UInt32) (l l' : List UInt8) :
    crc32cAppend crc (l ++ l') = crc32cAppend (crc32cAppend crc l) l' :=
  foldl_append

/-! ### Block images -/

inductive ImageOp
  | write (block : ℕ) (page : Page4K)
  | barrier

/-- The blocks as reads see them, and the operations so far. -/
structure BlockImage where
  block : ℕ → Page4K
  ops : List ImageOp

namespace BlockImage

def readBlock (image : BlockImage) (block : ℕ) : Page4K := image.block block

def writeBlock (image : BlockImage) (block : ℕ) (page : Page4K) : BlockImage :=
  { block := Function.update image.block block page, ops := image.ops ++ [.write block page] }

def writeAll (image : BlockImage) (ws : List (ℕ × Page4K)) : BlockImage :=
  ws.foldl (fun image w => image.writeBlock w.1 w.2) image

section

variable (image : BlockImage)

@[simp] lemma writeBlock_block (b : ℕ) (p : Page4K) :
    (image.writeBlock b p).block = update image.block b p := rfl

lemma writeAll_cons (w : ℕ × Page4K) (ws : List (ℕ × Page4K)) :
    image.writeAll (w :: ws) = (image.writeBlock w.1 w.2).writeAll ws := rfl

lemma writeAll_ops (ws : List (ℕ × Page4K)) :
    (image.writeAll ws).ops = image.ops ++ ws.map fun w => .write w.1 w.2 := by
  induction ws generalizing image with
  | nil => simp [writeAll]
  | cons w ws ih =>
    rw [writeAll_cons, ih]
    simp [writeBlock]

variable {ws : List (ℕ × Page4K)}

lemma writeAll_block_of_notMem {b : ℕ} (h : b ∉ ws.map Prod.fst) :
    (image.writeAll ws).block b = image.block b := by
  induction ws generalizing image with
  | nil => rfl
  | cons w ws ih =>
    simp only [map_cons, mem_cons, not_or] at h
    rw [writeAll_cons, ih _ h.2, writeBlock_block, update_of_ne h.1]

lemma writeAll_block_of_mem {w : ℕ × Page4K} (hw : w ∈ ws) (h : (ws.map Prod.fst).Nodup) :
    (image.writeAll ws).block w.1 = w.2 := by
  induction ws generalizing image with
  | nil => simp at hw
  | cons w' ws ih =>
    rw [map_cons, nodup_cons] at h
    rw [writeAll_cons]
    rcases mem_cons.mp hw with rfl | hw
    · rw [writeAll_block_of_notMem _ h.1, writeBlock_block, update_self]
    · exact ih _ hw h.2

end

def barrier (image : BlockImage) : BlockImage := { image with ops := image.ops ++ [.barrier] }

@[simp] lemma barrier_block (image : BlockImage) : image.barrier.block = image.block := rfl

end BlockImage

end TxKernel.Ext4
