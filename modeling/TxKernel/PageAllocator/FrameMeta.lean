import Mathlib.Algebra.Group.Nat.Defs
import Mathlib.Data.Nat.Basic

/-!
The metadata of a physical frame: flags, and four counters packed into one word. Bits `0..10` count
owners and retainers, `10..20` mappings, `20..28` the page cache, `28..32` long term pins.
-/

namespace TxKernel.PageAllocator

inductive AllocError where
  | exhausted
  | invalidRequest
  | zeroScrubUnavailable
  | reservedFrame
  | counterOverflow
  | counterUnderflow
deriving DecidableEq

structure Counter where
  shift : ℕ
  bits : ℕ
deriving DecidableEq

namespace Counter

def refcount : Counter := ⟨0, 10⟩
def mapCount : Counter := ⟨10, 10⟩
def cacheRef : Counter := ⟨20, 8⟩
def pinCount : Counter := ⟨28, 4⟩

def mask (c : Counter) : ℕ := 2 ^ c.bits - 1
def one (c : Counter) : ℕ := 2 ^ c.shift

def read (c : Counter) (state : ℕ) : ℕ := state / 2 ^ c.shift % 2 ^ c.bits

end Counter

structure FrameMeta where
  state : ℕ
  directMapped : Bool
  reserved : Bool
  permanent : Bool
deriving DecidableEq

namespace FrameMeta

def new : FrameMeta := ⟨0, false, false, false⟩

def markReserved (m : FrameMeta) : FrameMeta := { m with reserved := true }
def markDirectMapped (m : FrameMeta) : FrameMeta := { m with directMapped := true }
def markPermanent (m : FrameMeta) : FrameMeta :=
  { m with permanent := true, reserved := true, directMapped := true }

/-- Asserts that the frame is not permanent. -/
def clearReserved (m : FrameMeta) : Option FrameMeta :=
  if m.permanent then none else some { m with reserved := false }

def clearDirectMapped (m : FrameMeta) : Option FrameMeta :=
  if m.permanent then none else some { m with directMapped := false }

def claimPermanent (m : FrameMeta) : Except AllocError FrameMeta :=
  if m.state = 0 then .ok { m with state := Counter.refcount.one } else .error .invalidRequest

def claimOwned (m : FrameMeta) : Except AllocError FrameMeta :=
  if m.reserved then .error .reservedFrame
  else if m.state = 0 then .ok { m with state := Counter.refcount.one }
  else .error .invalidRequest

/-- Role counters are only raised on a live frame. -/
def incrementCounter (m : FrameMeta) (c : Counter) : Except AllocError FrameMeta :=
  if m.state = 0 then .error .invalidRequest
  else if c.read m.state = c.mask then .error .counterOverflow
  else .ok { m with state := m.state + c.one }

def decrementCounter (m : FrameMeta) (c : Counter) : Except AllocError FrameMeta :=
  if c.read m.state = 0 then .error .counterUnderflow
  else .ok { m with state := m.state - c.one }

end FrameMeta

/-- What holds a frame: a reservation, an owner of one of four sorts, or one of three roles. -/
inductive Kind where
  | reservation
  | owner
  | gift
  | pageTable
  | permanent
  | map
  | cache
  | dma
deriving DecidableEq

def Kind.counter : Kind → Option Counter
  | .reservation => none
  | .owner | .gift | .pageTable | .permanent => some .refcount
  | .map => some .mapCount
  | .cache => some .cacheRef
  | .dma => some .pinCount

abbrev Holders := Kind → ℕ

namespace Holders

def refs (h : Holders) : ℕ := h .owner + h .gift + h .pageTable + h .permanent

/-- The word that counts the holders. -/
def packed (h : Holders) : ℕ :=
  h.refs + 1024 * h .map + 1048576 * h .cache + 268435456 * h .dma

structure Fits (h : Holders) : Prop where
  refs : h.refs < 1024
  map : h .map < 1024
  cache : h .cache < 256
  dma : h .dma < 16

def Idle (h : Holders) : Prop := ∀ k, h k = 0

def add (h : Holders) (k : Kind) : Holders := fun l => if l = k then h l + 1 else h l

@[simp] lemma add_self (h : Holders) (k : Kind) : h.add k k = h k + 1 := if_pos rfl

lemma add_of_ne (h : Holders) {k l : Kind} (hl : l ≠ k) : h.add k l = h l := if_neg hl

lemma not_idle_add (h : Holders) (k : Kind) : ¬ (h.add k).Idle := fun hi => by
  have := hi k
  rw [add_self] at this
  omega

variable {h : Holders}

lemma packed_eq_zero (h0 : h.packed = 0) : ∀ k, k ≠ .reservation → h k = 0 := by
  intro k hk
  simp only [packed, refs] at h0
  cases k <;> first | omega | exact absurd rfl hk

def field (h : Holders) : Kind → ℕ
  | .reservation => 0
  | .owner | .gift | .pageTable | .permanent => h.refs
  | .map => h .map
  | .cache => h .cache
  | .dma => h .dma

variable {k : Kind} {c : Counter}

lemma le_field (hk : k ≠ .reservation) : h k ≤ h.field k := by
  cases k <;> simp only [field, refs] <;> first | omega | exact absurd rfl hk

lemma read_packed (hf : h.Fits) (hk : k.counter = some c) : c.read h.packed = h.field k := by
  obtain ⟨h1, h2, h3, h4⟩ := hf
  cases k <;> cases hk <;>
    simp only [Counter.read, packed, field, Counter.refcount, Counter.mapCount, Counter.cacheRef,
      Counter.pinCount, Nat.pow_zero, Nat.div_one] <;> omega

lemma packed_add (hk : k.counter = some c) : (h.add k).packed = h.packed + c.one := by
  cases k <;> cases hk <;>
    simp [packed, refs, add, Counter.one, Counter.refcount, Counter.mapCount, Counter.cacheRef,
      Counter.pinCount] <;> omega

lemma packed_add_reservation : (h.add .reservation).packed = h.packed := by
  simp [packed, refs, add]

lemma fits_add (hf : h.Fits) (hk : k.counter = some c) (hroom : c.read h.packed ≠ c.mask) :
    (h.add k).Fits := by
  rw [read_packed hf hk] at hroom
  obtain ⟨h1, h2, h3, h4⟩ := hf
  cases k <;> cases hk <;>
    simp only [field, Counter.mask, Counter.refcount, Counter.mapCount, Counter.cacheRef,
      Counter.pinCount] at hroom <;>
    constructor <;> simp only [refs, add] at * <;> simp at * <;> omega

lemma le_add (h : Holders) (k l : Kind) : h l ≤ h.add k l := by
  unfold add
  split_ifs <;> omega

lemma fits_of_add (hf : (h.add k).Fits) : h.Fits := by
  obtain ⟨h1, h2, h3, h4⟩ := hf
  have hle := le_add h k
  have ho := hle .owner
  have hg := hle .gift
  have hp := hle .pageTable
  have ha := hle .permanent
  refine ⟨?_, Nat.lt_of_le_of_lt (hle .map) h2, Nat.lt_of_le_of_lt (hle .cache) h3,
    Nat.lt_of_le_of_lt (hle .dma) h4⟩
  simp only [refs] at h1 ⊢
  omega

lemma fits_refcount {k l : Kind} (hk : k.counter = some .refcount)
    (hl : l.counter = some .refcount) (hf : (h.add k).Fits) : (h.add l).Fits := by
  obtain ⟨h1, h2, h3, h4⟩ := hf
  cases k <;> cases hk <;> cases l <;> cases hl <;> constructor <;>
    simp only [refs, add, reduceCtorEq, if_false, if_true] at * <;> omega

end Holders

end TxKernel.PageAllocator
