import Mathlib.Data.Nat.Bitwise
import Mathlib.Logic.Function.Basic

/-!
The table of a FAT volume, as runs of bits: an entry of FAT12 shares bytes with its neighbours, and
what the reader returns for an odd cluster reaches beyond the entry.
-/

namespace TxKernel.Fat

open List Option Function

/-! ### Bits of bytes -/

def fromLe (f : ℕ → UInt8) : ℕ → ℕ → ℕ
  | 0, _ => 0
  | n + 1, off => 2 ^ 8 * fromLe f n (off + 1) + (f off).toNat

def putLe (f : ℕ → UInt8) (n v off : ℕ) : ℕ → UInt8 := fun k =>
  if off ≤ k ∧ k < off + n then UInt8.ofNat (v >>> (8 * (k - off))) else f k

def bit (f : ℕ → UInt8) (k : ℕ) : Bool := (f (k / 8)).toNat.testBit (k % 8)

variable {f : ℕ → UInt8} {i k n v off : ℕ}

lemma testBit_fromLe : (fromLe f n off).testBit i =
    (decide (i < 8 * n) && bit f (8 * off + i)) := by
  induction n generalizing off i with
  | zero => simp [fromLe]
  | succ n ih =>
    rw [fromLe, Nat.testBit_two_pow_mul_add _ (f off).toNat_lt]
    by_cases hi : i < 8
    · have hdiv : (8 * off + i) / 8 = off := by omega
      have hmod : (8 * off + i) % 8 = i := by omega
      have hlt : i < 8 * (n + 1) := by omega
      simp [hi, bit, hdiv, hmod, hlt]
    · have hpos : 8 * (off + 1) + (i - 8) = 8 * off + i := by omega
      have hlt : i - 8 < 8 * n ↔ i < 8 * (n + 1) := by omega
      rw [if_neg hi, ih, hpos, decide_eq_decide.2 hlt]

lemma testBit_masked {w : ℕ} (hw : w ≤ 8 * n) : (fromLe f n off &&& (2 ^ w - 1)).testBit i =
    (decide (i < w) && bit f (8 * off + i)) := by
  have hlt : i < 8 * n ∧ i < w ↔ i < w := by omega
  rw [Nat.testBit_and, testBit_fromLe, Nat.testBit_two_pow_sub_one, Bool.and_right_comm,
    ← Bool.decide_and, decide_eq_decide.2 hlt]

lemma bit_putLe : bit (putLe f n v off) k =
    if 8 * off ≤ k ∧ k < 8 * off + 8 * n then v.testBit (k - 8 * off) else bit f k := by
  have hin : off ≤ k / 8 ∧ k / 8 < off + n ↔ 8 * off ≤ k ∧ k < 8 * off + 8 * n := by omega
  by_cases hk : 8 * off ≤ k ∧ k < 8 * off + 8 * n
  · have hpos : 8 * (k / 8 - off) + k % 8 = k - 8 * off := by omega
    have hlt : k % 8 < 8 := by omega
    have hmod : ∀ m : ℕ, (UInt8.ofNat m).toNat = m % 2 ^ 8 := fun m => by simp
    simp only [bit, putLe, if_pos (hin.2 hk), if_pos hk, hmod, Nat.testBit_mod_two_pow, hlt,
      Nat.testBit_shiftRight, hpos, decide_true, Bool.true_and]
  · simp only [bit, putLe, if_neg (hin.not.2 hk), if_neg hk]

/-! ### The pager -/

inductive FatType where
  | fat12
  | fat16
  | fat32
deriving DecidableEq

namespace FatType

def offset (t : FatType) (cluster : ℕ) : ℕ :=
  match t with
  | .fat12 => cluster * 3 / 2
  | .fat16 => cluster * 2
  | .fat32 => cluster * 4

def width : FatType → ℕ
  | .fat12 => 12
  | .fat16 => 16
  | .fat32 => 28

def writeLen : FatType → ℕ
  | .fat12 | .fat16 => 2
  | .fat32 => 4

end FatType

/-- `ondisk::fat_entry`. -/
def fatEntry (raw : ℕ) (t : FatType) : ℕ := raw &&& (2 ^ t.width - 1)

inductive FatFormatError where
  | outOfBounds
deriving DecidableEq

/-- `FatPager`, with the fields of its BPB that the table uses. A BPB without FATs is refused. -/
structure FatPager where
  fatType : FatType
  sectorsPerFat : ℕ
  numFats : ℕ
  numFats_pos : 0 < numFats
  fatCache : ℕ → UInt8
  copies : ℕ → ℕ → UInt8

namespace FatPager

def fatLen (p : FatPager) : ℕ := p.sectorsPerFat * 512

def readFatEntry (p : FatPager) (cluster : ℕ) : ℕ :=
  let offset := p.fatType.offset cluster
  if p.fatLen < offset + 4 then 2 ^ p.fatType.width - 1
  else
    let raw := fromLe p.fatCache 4 offset
    match p.fatType with
    | .fat12 => if cluster % 2 = 1 then raw >>> 4 else raw &&& (2 ^ 12 - 1)
    | .fat16 => fatEntry raw .fat16
    | .fat32 => fatEntry raw .fat32

/-- The bytes that `write_fat_entry` stores, as a number. -/
def newBytes (p : FatPager) (cluster value : ℕ) : ℕ :=
  let offset := p.fatType.offset cluster
  match p.fatType with
  | .fat12 =>
    let old := fromLe p.fatCache 2 offset
    if cluster % 2 = 1 then (old &&& (2 ^ 4 - 1)) ||| (value % 2 ^ 16) <<< 4 % 2 ^ 16
    else (old &&& (2 ^ 4 - 1) <<< 12) ||| (value % 2 ^ 16 &&& (2 ^ 12 - 1))
  | .fat16 => value % 2 ^ 16
  | .fat32 =>
    (fromLe p.fatCache 4 offset &&& (2 ^ 4 - 1) <<< 28) ||| (value &&& (2 ^ 28 - 1))

/-- One turn of the flush: read a sector, change it, write it back; `none` is a slice out of
range. -/
def flushCopy (p : FatPager) (cache : ℕ → UInt8) (offset : ℕ) (copies : ℕ → ℕ → UInt8) (copy : ℕ) :
    Option (ℕ → ℕ → UInt8) :=
  let sector := offset / 512
  let sectorOff := offset % 512
  let start := sectorOff / 512 * 512
  let inSector := offset - start
  if 512 < inSector + p.fatType.writeLen then none
  else some (Function.update copies copy fun k =>
    if k / 512 = sector ∧ inSector ≤ k % 512 ∧ k % 512 < inSector + p.fatType.writeLen
    then cache (offset + (k % 512 - inSector)) else copies copy k)

/-- `write_fat_entry` on an image whose reads and writes succeed; `none` is a panic. -/
def writeFatEntry (p : FatPager) (cluster value : ℕ) : Option (Except FatFormatError FatPager) :=
  let offset := p.fatType.offset cluster
  if p.fatLen < offset + 4 then some (.error .outOfBounds)
  else do
    let cache := putLe p.fatCache p.fatType.writeLen (p.newBytes cluster value) offset
    let copies ← (List.range p.numFats).foldlM (p.flushCopy cache offset) p.copies
    return .ok { p with fatCache := cache, copies := copies }

/-- The copies on disk have the bytes of the cache, where `only` holds. -/
def Mirrored (p : FatPager) (only : ℕ → Prop) : Prop :=
  ∀ copy < p.numFats, ∀ k < p.fatLen, only k → p.copies copy k = p.fatCache k

/-- The write goes through and has stored the value and nothing else. -/
def Stores (p : FatPager) (cluster value : ℕ) : Prop :=
  ∃ p', p.writeFatEntry cluster value = some (.ok p') ∧ p'.readFatEntry cluster = value ∧
    (∀ c ≠ cluster, p'.readFatEntry c = p.readFatEntry c) ∧ p'.Mirrored fun _ => True

/-! ### Entries as bits -/

variable {p p' : FatPager} {c c' : ℕ}

def shift (p : FatPager) (c : ℕ) : ℕ := if p.fatType = .fat12 ∧ c % 2 = 1 then 4 else 0

def bitStart (p : FatPager) (c : ℕ) : ℕ := 8 * p.fatType.offset c + p.shift c

/-- The bits that the reader returns: at an odd cluster of FAT12 all that it has loaded. -/
def readSpan (p : FatPager) (c : ℕ) : ℕ :=
  if p.fatType = .fat12 ∧ c % 2 = 1 then 28 else p.fatType.width

lemma testBit_readFatEntry (h : p.fatType.offset c + 4 ≤ p.fatLen) : (p.readFatEntry c).testBit i =
    (decide (i < p.readSpan c) && bit p.fatCache (p.bitStart c + i)) := by
  rw [readFatEntry, if_neg (by omega), readSpan, bitStart, shift]
  cases ht : p.fatType with
  | fat12 =>
    by_cases hc : c % 2 = 1
    · have hlt : 4 + i < 8 * 4 ↔ i < 28 := by omega
      simp only [hc, and_self, if_true, Nat.testBit_shiftRight, testBit_fromLe, hlt, Nat.add_assoc]
    · simp only [hc, and_false, if_false, Nat.add_zero]
      exact testBit_masked (by decide)
  | fat16 | fat32 => exact testBit_masked (by decide)

lemma testBit_newBytes (hi : i < 8 * p.fatType.writeLen) : (p.newBytes c v).testBit i =
    if p.shift c ≤ i ∧ i < p.shift c + p.fatType.width then v.testBit (i - p.shift c)
    else bit p.fatCache (8 * p.fatType.offset c + i) := by
  rw [newBytes, shift]
  cases ht : p.fatType with
  | fat12 =>
    simp only [FatType.writeLen] at hi
    by_cases hc : c % 2 = 1
    · simp only [hc, and_self, if_true, FatType.width, Nat.testBit_or, Nat.testBit_mod_two_pow,
        Nat.testBit_shiftLeft, testBit_masked (by decide : 4 ≤ 8 * 2)]
      grind
    · simp only [hc, and_false, if_false, FatType.width, Nat.testBit_or, Nat.testBit_and,
        Nat.testBit_mod_two_pow, Nat.testBit_shiftLeft, testBit_fromLe, Nat.testBit_two_pow_sub_one]
      grind
  | fat16 =>
    simp only [FatType.writeLen] at hi
    simp only [Nat.testBit_mod_two_pow, FatType.width]
    grind
  | fat32 =>
    simp only [FatType.writeLen] at hi
    simp only [FatType.width, Nat.testBit_or, Nat.testBit_and, Nat.testBit_shiftLeft,
      testBit_fromLe, Nat.testBit_two_pow_sub_one]
    grind

/-- A write changes the bits of its entry and no other. -/
lemma bit_written :
    bit (putLe p.fatCache p.fatType.writeLen (p.newBytes c v) (p.fatType.offset c)) k =
      if p.bitStart c ≤ k ∧ k < p.bitStart c + p.fatType.width then v.testBit (k - p.bitStart c)
      else bit p.fatCache k := by
  have hfit : p.shift c + p.fatType.width ≤ 8 * p.fatType.writeLen := by
    unfold shift
    cases p.fatType with
    | fat12 =>
      simp only [FatType.width, FatType.writeLen]
      split_ifs <;> omega
    | fat16 | fat32 => simp [FatType.width, FatType.writeLen]
  rw [bit_putLe]
  unfold bitStart
  by_cases hk : 8 * p.fatType.offset c ≤ k ∧ k < 8 * p.fatType.offset c + 8 * p.fatType.writeLen
  · have hback : 8 * p.fatType.offset c + (k - 8 * p.fatType.offset c) = k := by omega
    rw [if_pos hk, testBit_newBytes (by omega), hback, Nat.sub_sub]
    congr 1
    rw [eq_iff_iff]
    omega
  · rw [if_neg hk, if_neg (by omega)]

def patched (p : FatPager) (c v : ℕ) : FatPager :=
  { p with fatCache := putLe p.fatCache p.fatType.writeLen (p.newBytes c v) (p.fatType.offset c) }

lemma testBit_read_patched (h : p.fatType.offset c' + 4 ≤ p.fatLen) :
    ((p.patched c v).readFatEntry c').testBit i =
      if i < p.readSpan c' ∧ p.bitStart c ≤ p.bitStart c' + i ∧
          p.bitStart c' + i < p.bitStart c + p.fatType.width
      then v.testBit (p.bitStart c' + i - p.bitStart c) else (p.readFatEntry c').testBit i := by
  rw [testBit_readFatEntry h]
  refine (testBit_readFatEntry (p := p.patched c v) h).trans ?_
  have hbit : bit (p.patched c v).fatCache (p.bitStart c' + i) = _ := bit_written
  change (decide (i < p.readSpan c') && bit (p.patched c v).fatCache (p.bitStart c' + i)) = _
  rw [hbit]
  by_cases hi : i < p.readSpan c' <;> simp [hi]

lemma bitStart_fat12 (ht : p.fatType = .fat12) (c : ℕ) : p.bitStart c = 12 * c := by
  simp only [bitStart, shift, ht, true_and, FatType.offset]
  split_ifs <;> omega

/-- Only odd clusters of FAT12 return bits of other entries, of the next two. -/
lemma overlap_of_ne (hne : c' ≠ c) (hi : i < p.readSpan c') (hlo : p.bitStart c ≤ p.bitStart c' + i)
    (hhi : p.bitStart c' + i < p.bitStart c + p.fatType.width) :
    p.fatType = .fat12 ∧ c' % 2 = 1 ∧
      (c = c' + 1 ∨ c = c' + 2 ∧ p.bitStart c' + i < p.bitStart c + 4) := by
  cases ht : p.fatType with
  | fat12 =>
    rw [bitStart_fat12 ht, bitStart_fat12 ht] at hlo hhi ⊢
    simp only [readSpan, ht, true_and, FatType.width] at hi hhi ⊢
    split_ifs at hi <;> omega
  | fat16 | fat32 =>
    simp only [readSpan, bitStart, shift, ht, FatType.width, FatType.offset, reduceCtorEq,
      false_and, if_false] at hi hlo hhi
    omega

/-- What an entry of FAT12 must be like, so that neither it nor one that is read together with it is
read wrong after a write. -/
def Harmless (p : FatPager) (c v : ℕ) : Prop :=
  p.fatType = .fat12 → (c % 2 = 0 → c = 0 ∨ p.readFatEntry c = v) ∧
    (c % 2 = 1 → p.readFatEntry c < 2 ^ 12 ∧ (c = 1 ∨ p.readFatEntry c % 2 ^ 4 = v % 2 ^ 4))

lemma width_le_readSpan : p.fatType.width ≤ p.readSpan c := by
  unfold readSpan
  split_ifs with hc
  · simp [hc.1, FatType.width]
  · exact le_rfl

lemma readFatEntry_lt (h : p.fatType.offset c + 4 ≤ p.fatLen)
    (hc : ¬ (p.fatType = .fat12 ∧ c % 2 = 1)) : p.readFatEntry c < 2 ^ p.fatType.width := by
  refine Nat.lt_pow_two_of_testBit _ fun i hi => ?_
  rw [testBit_readFatEntry h, readSpan, if_neg hc]
  simp [Nat.not_lt.2 hi]

lemma eq_of_testBit_lt {a b w : ℕ} (ha : a < 2 ^ w) (hb : b < 2 ^ w)
    (h : ∀ i < w, a.testBit i = b.testBit i) : a = b := by
  refine Nat.eq_of_testBit_eq fun i => ?_
  by_cases hi : i < w
  · exact h i hi
  have hpow : 2 ^ w ≤ 2 ^ i := Nat.pow_le_pow_right (by decide) (Nat.not_lt.1 hi)
  rw [Nat.testBit_lt_two_pow (ha.trans_le hpow), Nat.testBit_lt_two_pow (hb.trans_le hpow)]

lemma read_patched_self_iff (h : p.fatType.offset c + 4 ≤ p.fatLen) (hv : v < 2 ^ p.fatType.width) :
    (p.patched c v).readFatEntry c = v ↔
      (p.fatType = .fat12 → c % 2 = 1 → p.readFatEntry c < 2 ^ 12) := by
  have hbits : ∀ i, ((p.patched c v).readFatEntry c).testBit i =
      if i < p.fatType.width then v.testBit i else (p.readFatEntry c).testBit i := by
    intro i
    have hspan : p.fatType.width ≤ p.readSpan c := width_le_readSpan
    rw [testBit_read_patched h]
    by_cases hi : i < p.fatType.width
    · rw [if_pos (by omega), if_pos hi, Nat.add_sub_cancel_left]
    · rw [if_neg (by omega), if_neg hi]
  have hlow : (p.patched c v).readFatEntry c = v ↔ p.readFatEntry c < 2 ^ p.fatType.width := by
    constructor
    · intro heq
      refine Nat.lt_pow_two_of_testBit _ fun i hi => ?_
      have hbit := hbits i
      rw [if_neg (Nat.not_lt.2 hi), heq] at hbit
      rw [← hbit]
      exact Nat.testBit_lt_two_pow (hv.trans_le (Nat.pow_le_pow_right (by decide) hi))
    · intro hlt
      refine eq_of_testBit_lt (Nat.lt_pow_two_of_testBit _ fun i hi => ?_) hv fun i hi => ?_
      · rw [hbits, if_neg (Nat.not_lt.2 hi)]
        exact Nat.testBit_lt_two_pow (hlt.trans_le (Nat.pow_le_pow_right (by decide) hi))
      · rw [hbits, if_pos hi]
  rw [hlow]
  by_cases hc : p.fatType = .fat12 ∧ c % 2 = 1
  · simp [hc, FatType.width]
  · exact iff_of_true (readFatEntry_lt h hc) fun ht hodd => absurd ⟨ht, hodd⟩ hc

lemma read_patched_other (h : p.Harmless c v) (hin : p.fatType.offset c + 4 ≤ p.fatLen)
    (hne : c' ≠ c) : (p.patched c v).readFatEntry c' = p.readFatEntry c' := by
  by_cases hlen : p.fatLen < p.fatType.offset c' + 4
  · exact (if_pos hlen).trans (if_pos hlen).symm
  refine Nat.eq_of_testBit_eq fun i => ?_
  rw [testBit_read_patched (by omega)]
  split_ifs with hi
  · obtain ⟨hi, hlo, hhi⟩ := hi
    obtain ⟨ht, hodd, hc⟩ := overlap_of_ne hne hi hlo hhi
    -- the bit of the entry that is returned with `c'` does not change
    set j := p.bitStart c' + i - p.bitStart c with hj
    have hold : (p.readFatEntry c').testBit i = (p.readFatEntry c).testBit j := by
      have hspan : j < p.readSpan c := lt_of_lt_of_le (by omega) width_le_readSpan
      have hpos : p.bitStart c + j = p.bitStart c' + i := by omega
      rw [testBit_readFatEntry (by omega), testBit_readFatEntry hin, hpos]
      simp [hi, hspan]
    rw [hold]
    rcases hc with rfl | ⟨rfl, hj4⟩
    · rcases (h ht).1 (by omega) with h0 | h0
      · omega
      · rw [h0]
    have hlow := ((h ht).2 (by omega)).2.resolve_left (by omega)
    have hj4 : j < 4 := by omega
    have hbit := congrArg (Nat.testBit · j) hlow
    simp only [Nat.testBit_mod_two_pow, hj4, decide_true, Bool.true_and] at hbit
    exact hbit.symm
  · rfl

lemma harmless_of_read (hin : p.fatType.offset c + 4 ≤ p.fatLen) (hv : v < 2 ^ p.fatType.width)
    (hself : (p.patched c v).readFatEntry c = v)
    (hother : ∀ c' ≠ c, (p.patched c v).readFatEntry c' = p.readFatEntry c') : p.Harmless c v := by
  intro ht
  -- the bits of the entry that are returned with an odd cluster in front of it
  have hbits : ∀ c' d, c = c' + d → 1 ≤ d → c' % 2 = 1 → ∀ j < p.fatType.width, 12 * d + j < 28 →
      (p.readFatEntry c).testBit j = v.testBit j := by
    intro c' d hc hd hodd j hj hlt
    have hin' : p.fatType.offset c' + 4 ≤ p.fatLen := by
      rw [ht] at hin ⊢
      simp only [FatType.offset] at hin ⊢
      omega
    have hspan' : p.readSpan c' = 28 := if_pos ⟨ht, hodd⟩
    have hspan : j < p.readSpan c := hj.trans_le width_le_readSpan
    have hread := congrArg (Nat.testBit · (12 * d + j)) (hother c' (by omega))
    have hpos : 12 * c' + (12 * d + j) = 12 * c + j := by omega
    simp only [testBit_read_patched hin', hspan', bitStart_fat12 ht, hpos, hlt,
      testBit_readFatEntry hin', Nat.le_add_right, Nat.add_lt_add_iff_left, hj, and_self, if_true,
      Nat.add_sub_cancel_left] at hread
    simpa [testBit_readFatEntry hin, hspan, bitStart_fat12 ht] using hread.symm
  have hwidth : p.fatType.width = 12 := by rw [ht, FatType.width]
  refine ⟨fun heven => ?_, fun hodd => ⟨(read_patched_self_iff hin hv).1 hself ht hodd, ?_⟩⟩
  · by_cases h0 : c = 0
    · exact .inl h0
    exact .inr (eq_of_testBit_lt (readFatEntry_lt hin (by omega)) hv fun i hi =>
      hbits (c - 1) 1 (by omega) le_rfl (by omega) i hi (by omega))
  by_cases h1 : c = 1
  · exact .inl h1
  refine .inr (eq_of_testBit_lt (Nat.mod_lt _ (by decide)) (Nat.mod_lt _ (by decide))
    fun i hi => ?_)
  rw [Nat.testBit_mod_two_pow, Nat.testBit_mod_two_pow,
    hbits (c - 2) 2 (by omega) (by decide) (by omega) i (by omega) (by omega)]

/-! ### The copies on disk -/

variable {cache : ℕ → UInt8} {copies : ℕ → ℕ → UInt8}

lemma flushCopy_eq (copy : ℕ) : p.flushCopy cache off copies copy =
    if 512 < off + p.fatType.writeLen then none
    else some (update copies copy fun k =>
      if off ≤ k ∧ k < off + p.fatType.writeLen then cache k else copies copy k) := by
  have hstart : off - off % 512 / 512 * 512 = off := by omega
  simp only [flushCopy, hstart]
  split_ifs with hfit
  · rfl
  congr 2
  funext k
  by_cases hk : off ≤ k ∧ k < off + p.fatType.writeLen
  · have hmod : k % 512 = k := by omega
    rw [if_pos (by omega), if_pos hk, hmod, Nat.add_sub_cancel' hk.1]
  · rw [if_neg (by omega), if_neg hk]

lemma flush_eq (hfit : off + p.fatType.writeLen ≤ 512) (n : ℕ) :
    (range n).foldlM (p.flushCopy cache off) copies = some fun copy k =>
      if copy < n ∧ off ≤ k ∧ k < off + p.fatType.writeLen then cache k else copies copy k := by
  induction n with
  | zero => simp
  | succ n ih =>
    rw [range_succ, foldlM_append, ih]
    simp only [bind_eq_bind, bind_some, foldlM_cons, foldlM_nil, flushCopy_eq,
      if_neg (Nat.not_lt.2 hfit), Option.pure_def, some.injEq]
    funext copy k
    by_cases hc : copy = n
    · simp [hc]
    have hlt : copy < n + 1 ↔ copy < n := by omega
    simp [update_of_ne hc, hlt]

lemma flush_eq_none (hfit : 512 < off + p.fatType.writeLen) :
    (range p.numFats).foldlM (p.flushCopy cache off) copies = none := by
  obtain ⟨n, hn⟩ := Nat.exists_eq_add_of_lt p.numFats_pos
  rw [hn, Nat.zero_add, range_succ_eq_map, foldlM_cons, flushCopy_eq, if_pos hfit]
  rfl

def written (p : FatPager) (c v : ℕ) : FatPager :=
  { p.patched c v with
    copies := fun copy k =>
      if copy < p.numFats ∧ p.fatType.offset c ≤ k ∧ k < p.fatType.offset c + p.fatType.writeLen
      then (p.patched c v).fatCache k
      else p.copies copy k }

lemma mirrored_written_iff : ((p.written c v).Mirrored fun _ => True) ↔ p.Mirrored fun k =>
    ¬ (p.fatType.offset c ≤ k ∧ k < p.fatType.offset c + p.fatType.writeLen) := by
  refine forall_congr' fun copy => forall_congr' fun hcopy => forall_congr' fun k =>
    forall_congr' fun _ => ?_
  have hcopy : copy < p.numFats := hcopy
  by_cases hk : p.fatType.offset c ≤ k ∧ k < p.fatType.offset c + p.fatType.writeLen
  · simp [written, hcopy, hk]
  have hcache : (p.patched c v).fatCache k = p.fatCache k := if_neg hk
  simp [written, hk, hcache]

/-- **What a write to the table does**: it stores the value and nothing else, on every copy, if and
only if the reader loads the entry from inside the table, the entry lies in the first sector, the
copies agree elsewhere, and for FAT12 nothing that is read together with another entry changes. -/
theorem stores_iff (p : FatPager) (c v : ℕ) (hv : v < 2 ^ p.fatType.width) : p.Stores c v ↔
    p.fatType.offset c + 4 ≤ p.fatLen ∧ p.fatType.offset c + p.fatType.writeLen ≤ 512 ∧
      p.Harmless c v ∧ p.Mirrored fun k =>
        ¬ (p.fatType.offset c ≤ k ∧ k < p.fatType.offset c + p.fatType.writeLen) := by
  have hread : ∀ c', (p.written c v).readFatEntry c' = (p.patched c v).readFatEntry c' :=
    fun _ => rfl
  by_cases hin : p.fatType.offset c + 4 ≤ p.fatLen
  · by_cases hfit : p.fatType.offset c + p.fatType.writeLen ≤ 512
    · have hwrite : p.writeFatEntry c v = some (.ok (p.written c v)) := by
        rw [writeFatEntry, if_neg (Nat.not_lt.2 hin)]
        dsimp only
        rw [flush_eq hfit]
        rfl
      constructor
      · rintro ⟨p', hp', hself, hother, hcopies⟩
        obtain rfl : p.written c v = p' := Except.ok.inj (some.inj (hwrite.symm.trans hp'))
        exact ⟨hin, hfit, harmless_of_read hin hv (hread c ▸ hself) fun c' hne =>
          hread c' ▸ hother c' hne, mirrored_written_iff.1 hcopies⟩
      rintro ⟨-, -, hharm, hcopies⟩
      refine ⟨p.written c v, hwrite, ?_, fun c' hne => ?_, mirrored_written_iff.2 hcopies⟩
      · rw [hread, read_patched_self_iff hin hv]
        exact fun ht hodd => ((hharm ht).2 hodd).1
      · rw [hread, read_patched_other hharm hin hne]
    · refine iff_of_false ?_ fun h => hfit h.2.1
      rintro ⟨p', hwrite, -⟩
      rw [writeFatEntry, if_neg (Nat.not_lt.2 hin)] at hwrite
      dsimp only at hwrite
      rw [flush_eq_none (Nat.not_le.1 hfit)] at hwrite
      cases hwrite
  · refine iff_of_false ?_ fun h => hin h.1
    rintro ⟨p', hwrite, -⟩
    rw [writeFatEntry, if_pos (Nat.not_le.1 hin)] at hwrite
    cases hwrite

def emptyTable (t : FatType) : FatPager := ⟨t, 1, 2, Nat.two_pos, fun _ => 0, fun _ _ => 0⟩

theorem stores_sixteenBits : (emptyTable .fat16).Stores 5 0xFFFF :=
  (stores_iff (emptyTable .fat16) 5 0xFFFF (by decide)).2
    ⟨by decide, by decide, fun ht => (by cases ht), fun _ _ _ _ _ => rfl⟩

/-- The first entry of the second sector: the write slices out of the sector it has read. An odd
entry of FAT12 in front of one that is not free is not read back. -/
theorem write_beyond_sector_panics :
    (⟨.fat16, 2, 2, Nat.two_pos, fun _ => 0, fun _ _ => 0⟩ : FatPager).writeFatEntry 256 0xFFFF
      = none ∧
    (((emptyTable .fat12).patched 4 7).patched 3 5).readFatEntry 3 = 5 + 7 * 2 ^ 12 := by
  constructor
  · rfl
  · decide

end FatPager

end TxKernel.Fat
