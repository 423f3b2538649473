import Mathlib.Data.List.Basic
import Mathlib.Tactic.Ring

/-!
Bytes: numbers of a fixed width, slices, and buffers that are written in place and carry their
length.
-/

namespace TxKernel.Bytes

open List

/-! ### Numbers -/

/-- The `n` low bytes of a number, most significant first. -/
def be : ℕ → ℕ → List UInt8
  | 0, _ => []
  | n + 1, v => be n (v / 256) ++ [UInt8.ofNat (v % 256)]

def ofBe (l : List UInt8) : ℕ := l.foldl (fun acc b => acc * 256 + b.toNat) 0

@[simp] lemma length_be (n v : ℕ) : (be n v).length = n := by
  induction n generalizing v with
  | zero => rfl
  | succ n ih => simp [be, ih]

lemma ofBe_append (l : List UInt8) (b : UInt8) : ofBe (l ++ [b]) = ofBe l * 256 + b.toNat := by
  simp [ofBe, foldl_append]

lemma ofBe_be (n v : ℕ) : ofBe (be n v) = v % 256 ^ n := by
  induction n generalizing v with
  | zero => simp [be, ofBe, Nat.mod_one]
  | succ n ih =>
    have hb : (UInt8.ofNat (v % 256)).toNat = v % 256 := by simp
    rw [be, ofBe_append, ih, hb, Nat.pow_succ, Nat.mul_comm (256 ^ n) 256, Nat.mod_mul]
    omega

lemma be_zero (n : ℕ) : be n 0 = replicate n 0 := by
  induction n with
  | zero => rfl
  | succ n ih => simp [be, ih, ← replicate_succ']

/-! ### Slices -/

def slice (l : List UInt8) (off len : ℕ) : Option (List UInt8) :=
  if off + len ≤ l.length then some ((l.drop off).take len) else none

variable {l : List UInt8} {off len : ℕ}

lemma slice_of_le (h : off + len ≤ l.length) :
    slice l off len = some ((l.drop off).take len) := if_pos h

lemma slice_append {pre d post : List UInt8} (hoff : pre.length = off) (hlen : d.length = len) :
    slice (pre ++ d ++ post) off len = some d := by
  subst hoff hlen
  rw [slice_of_le (by simp), append_assoc, drop_left, take_left]

lemma slice_append_left {l' : List UInt8} (h : off + len ≤ l.length) :
    slice (l ++ l') off len = slice l off len := by
  rw [slice_of_le h, slice_of_le (by simp; omega), drop_append_of_le_length (by omega),
    take_append_of_le_length (by simp; omega)]

lemma slice_append_right {l' : List UInt8} {off' : ℕ} (h : off = l.length + off') :
    slice (l ++ l') off len = slice l' off' len := by
  subst h
  have hle : l.length + off' + len ≤ (l ++ l').length ↔ off' + len ≤ l'.length := by
    rw [length_append]
    omega
  rw [slice, slice, drop_append, drop_eq_nil_of_le (by omega), if_congr hle rfl rfl,
    nil_append, Nat.add_sub_cancel_left]

lemma slice_drop {k : ℕ} (h : k ≤ l.length) : slice (l.drop k) off len = slice l (k + off) len := by
  have hk : (l.take k).length = k := by simp [h]
  conv_rhs => rw [← take_append_drop k l]
  rw [slice_append_right (by rw [hk])]

/-- `d` written over `l` from `off` on. -/
def splice (l : List UInt8) (off : ℕ) (d : List UInt8) : List UInt8 :=
  l.take off ++ d ++ l.drop (off + d.length)

section

variable {l d : List UInt8} {off : ℕ}

section

variable {off : ℕ} (h : off + d.length ≤ l.length)

include h

lemma length_splice : (splice l off d).length = l.length := by
  simp [splice]
  omega

lemma slice_splice_of_disjoint {off' len : ℕ} (hd : off' + len ≤ off ∨ off + d.length ≤ off') :
    slice (splice l off d) off' len = slice l off' len := by
  rcases hd with hd | hd
  · rw [splice, append_assoc, slice_append_left (by simp; omega)]
    conv_rhs => rw [← take_append_drop off l]
    rw [slice_append_left (by simp; omega)]
  · obtain ⟨k, rfl⟩ := Nat.exists_eq_add_of_le hd
    have hlen : (l.take off ++ d).length = off + d.length := by simp; omega
    rw [splice, slice_append_right (by rw [hlen]), slice_drop h]

lemma getElem?_splice_of_disjoint {i : ℕ} (hi : i < off ∨ off + d.length ≤ i) :
    (splice l off d)[i]? = l[i]? := by
  rcases hi with hi | hi
  · rw [splice, append_assoc, getElem?_append_left (by simp; omega), getElem?_take,
      if_pos hi]
  have hlen : (l.take off ++ d).length = off + d.length := by simp; omega
  rw [splice, getElem?_append_right (by omega), hlen, getElem?_drop,
    Nat.add_sub_cancel' hi]

end

lemma take_splice {k : ℕ} (h : off ≤ l.length) (hk : k ≤ off) :
    (splice l off d).take k = l.take k := by
  rw [splice, append_assoc, take_append_of_le_length (by simp; omega), take_take,
    min_eq_left hk]

lemma drop_splice (h : off ≤ l.length) :
    (splice l off d).drop (off + d.length) = l.drop (off + d.length) := by
  have hlen : (l.take off ++ d).length = off + d.length := by simp; omega
  rw [splice]
  conv_lhs => rw [← hlen]
  rw [drop_left, hlen]

end

/-! ### Buffers -/

@[ext] structure Buf (n : ℕ) where
  bytes : List UInt8
  length_eq : bytes.length = n
  deriving DecidableEq

attribute [simp] Buf.length_eq

namespace Buf

variable {n : ℕ} {b b' : Buf n} {pre d : List UInt8} {off : ℕ}

def zero (n : ℕ) : Buf n := ⟨List.replicate n 0, length_replicate⟩

def put (b : Buf n) (off : ℕ) (d : List UInt8) : Option (Buf n) :=
  if h : off + d.length ≤ n then
    some ⟨splice b.bytes off d, (length_splice (by rw [b.length_eq]; exact h)).trans b.length_eq⟩
  else none

lemma put_of_le (b : Buf n) (off : ℕ) (d : List UInt8) (h : off + d.length ≤ n) :
    ∃ b', b.put off d = some b' ∧ b'.bytes = splice b.bytes off d := by
  rw [put, dif_pos h]
  exact ⟨_, rfl, rfl⟩

def suffix (b : Buf n) (off : ℕ) : Buf (n - off) :=
  ⟨b.bytes.drop off, by rw [length_drop, b.length_eq]⟩

def withSuffix (b : Buf n) (off : ℕ) (s : Buf (n - off)) (h : off ≤ n) : Buf n :=
  ⟨b.bytes.take off ++ s.bytes, by
    rw [length_append, length_take, b.length_eq, s.length_eq]; omega⟩

def Filled (b : Buf n) (pre : List UInt8) : Prop :=
  b.bytes = pre ++ List.replicate (n - pre.length) 0

section

variable (h : Filled b pre)

include h

lemma Filled.length_le : pre.length ≤ n := by
  have := congrArg length h
  rw [b.length_eq, length_append, length_replicate] at this
  omega

lemma Filled.put (off : ℕ) (hoff : pre.length = off) (hd : off + d.length ≤ n) :
    ∃ b', b.put off d = some b' ∧ Filled b' (pre ++ d) := by
  obtain ⟨b', hput, hb'⟩ := put_of_le b _ _ hd
  refine ⟨b', hput, ?_⟩
  subst hoff
  rw [Filled, hb', splice, h, take_left, drop_append, drop_eq_nil_of_le (by omega),
    nil_append, drop_replicate, length_append]
  congr 2
  omega

lemma Filled.extend {k : ℕ} (hk : pre.length + k ≤ n) : Filled b (pre ++ replicate k 0) := by
  rw [Filled, append_assoc, replicate_append_replicate, length_append, length_replicate, h]
  congr 2
  omega

lemma Filled.suffix (hoff : pre.length = off) : Filled (b.suffix off) [] := by
  subst hoff
  change b.bytes.drop pre.length = [] ++ replicate (n - pre.length - ([] : List UInt8).length) 0
  rw [h, drop_left]
  rfl

lemma Filled.withSuffix (hoff : pre.length = off) (hn : off ≤ n)
    {s : Buf (n - off)} (hs : Filled s d) : Filled (b.withSuffix off s hn) (pre ++ d) := by
  subst hoff
  change b.bytes.take pre.length ++ s.bytes = _
  rw [h, take_left, hs, append_assoc, length_append, Nat.sub_sub]

end

end Buf

end TxKernel.Bytes
