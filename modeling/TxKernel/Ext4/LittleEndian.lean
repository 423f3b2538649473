import Mathlib.Data.List.Induction
import TxKernel.Ext4.Format

/-!
Little-endian fields, as all of ext4 outside its journal has them.
-/

namespace TxKernel.Ext4

open Bytes List

def sliceAt (bytes : List UInt8) (off len : ℕ) : Result (List UInt8) :=
  match slice bytes off len with
  | some d => .ok d
  | none => .error .truncated

def readLe (w : ℕ) (bytes : List UInt8) (off : ℕ) : Result ℕ :=
  (sliceAt bytes off w).map fun d => ofBe d.reverse

def le (w v : ℕ) : List UInt8 := (be w v).reverse

@[simp] lemma length_le (w v : ℕ) : (le w v).length = w := by simp [le]

lemma ofBe_lt (l : List UInt8) : ofBe l < 256 ^ l.length := by
  induction l using reverseRecOn with
  | nil => simp [ofBe]
  | append_singleton l b ih =>
    have hb := b.toNat_lt
    rw [ofBe_append, length_append, length_singleton, Nat.pow_succ]
    omega

variable {w off v : ℕ} {bytes : List UInt8}

lemma readLe_eq_ok : readLe w bytes off = .ok v ↔
    off + w ≤ bytes.length ∧ ofBe ((bytes.drop off).take w).reverse = v := by
  unfold readLe sliceAt
  by_cases hle : off + w ≤ bytes.length
  · simp [slice_of_le hle, Except.map, hle]
  have hnone : slice bytes off w = none := if_neg hle
  simp [hnone, Except.map, hle]

lemma readLe_lt (h : readLe w bytes off = .ok v) : v < 256 ^ w := by
  obtain ⟨hle, rfl⟩ := readLe_eq_ok.mp h
  have hlen : ((bytes.drop off).take w).reverse.length = w := by simp; omega
  have hlt := ofBe_lt ((bytes.drop off).take w).reverse
  rwa [hlen] at hlt

lemma readLe_append (pre post : List UInt8) (hoff : pre.length = off) (hv : v < 256 ^ w) :
    readLe w (pre ++ le w v ++ post) off = .ok v := by
  rw [readLe, sliceAt, slice_append hoff (length_le w v)]
  simp [Except.map, le, ofBe_be, Nat.mod_eq_of_lt hv]

lemma readLe_zeros {n : ℕ} (h : readLe w (replicate n 0) off = .ok v) : v = 0 := by
  obtain ⟨-, rfl⟩ := readLe_eq_ok.mp h
  rw [drop_replicate, take_replicate, reverse_replicate, ← be_zero, ofBe_be, Nat.zero_mod]

end TxKernel.Ext4
