import TxKernel.Library.Spans

/-!
The value vocabulary of the address-space code. Addresses are natural numbers below `2 ^ 64`; a
range carries what `UserRange::new_aligned` checks. Capabilities to page containers and private page
sets are numbers; equal numbers are the same object.
-/

namespace TxKernel.Vm

open TxKernel.Spans

def userPageSize : ℕ := 4096

inductive UserRangeError
  | zeroLength
  | unaligned
  | overflow
  deriving Repr, DecidableEq

/-- A nonempty page-aligned range of user addresses, `[start, stop)`. -/
structure UserRange where
  start : ℕ
  stop : ℕ
  start_lt_stop : start < stop
  start_aligned : start % userPageSize = 0
  stop_aligned : stop % userPageSize = 0
  stop_lt : stop < 2 ^ 64
  deriving Repr, DecidableEq

namespace UserRange

def newAligned (start len : ℕ) : Except UserRangeError UserRange :=
  if h0 : len = 0 then .error .zeroLength
  else if ha : start % userPageSize = 0 ∧ len % userPageSize = 0 then
    if ho : start + len < 2 ^ 64 then
      .ok ⟨start, start + len, by omega, ha.1, by rw [Nat.add_mod, ha.1, ha.2]; rfl, ho⟩
    else .error .overflow
  else .error .unaligned

def len (r : UserRange) : ℕ := r.stop - r.start

def pageCount (r : UserRange) : ℕ := r.len / userPageSize

abbrev containsAddr (r : UserRange) (addr : ℕ) : Prop := r.start ≤ addr ∧ addr < r.stop

abbrev containsRange (r other : UserRange) : Prop := r.start ≤ other.start ∧ other.stop ≤ r.stop

abbrev overlaps (r other : UserRange) : Prop := r.start < other.stop ∧ other.start < r.stop

def pages (first count : ℕ) (h : 0 < count ∧ (first + count) * userPageSize < 2 ^ 64) :
    UserRange where
  start := first * userPageSize
  stop := (first + count) * userPageSize
  start_lt_stop := Nat.mul_lt_mul_of_pos_right (by omega) (by decide)
  start_aligned := Nat.mul_mod_left ..
  stop_aligned := Nat.mul_mod_left ..
  stop_lt := h.2

lemma ext_ends {r q : UserRange} (h1 : r.start = q.start) (h2 : r.stop = q.stop) : r = q := by
  cases r; cases q; simp_all

lemma len_pos (r : UserRange) : 0 < r.len := by
  have := r.start_lt_stop
  unfold len; omega

lemma start_add_len (r : UserRange) : r.start + r.len = r.stop := by
  have := r.start_lt_stop
  unfold len; omega

lemma len_aligned (r : UserRange) : r.len % userPageSize = 0 := by
  have h1 := r.start_aligned
  have h2 := r.stop_aligned
  have h3 := r.start_add_len
  unfold userPageSize at *
  omega

lemma newAligned_eq_ok (start len : ℕ) (h0 : 0 < len) (hs : start % userPageSize = 0)
    (hl : len % userPageSize = 0) (ho : start + len < 2 ^ 64) :
    ∃ r, newAligned start len = .ok r ∧ r.start = start ∧ r.stop = start + len := by
  unfold newAligned
  rw [dif_neg (by omega), dif_pos ⟨hs, hl⟩, dif_pos ho]
  exact ⟨_, rfl, rfl, rfl⟩

lemma ends_of_newAligned {start len : ℕ} {r : UserRange} (h : newAligned start len = .ok r) :
    r.start = start ∧ r.stop = start + len := by
  unfold newAligned at h
  split_ifs at h
  cases h
  exact ⟨rfl, rfl⟩

end UserRange

/-- Whether a private frame belongs to one mapping or is aliased since a fork. -/
inductive PrivateFrameState
  | exclusive
  | sharedCow
  deriving Repr, DecidableEq

structure PrivateFrameSnapshot where
  ppn : ℕ
  state : PrivateFrameState
  deriving Repr, DecidableEq

inductive PrivatePageError
  | conflict (current : PrivateFrameSnapshot)
  | missing
  | zone
  deriving Repr, DecidableEq

inductive VmEntryError
  | range (e : UserRangeError)
  | rangeNotContained
  | backingOffsetOverflow
  | priv (e : PrivatePageError)
  deriving Repr, DecidableEq

inductive VmMapError
  | alreadyMapped
  | invalidRange
  | missingMapping
  | noFreeRange
  | wouldBlock
  | backingOffsetOverflow
  | priv (e : PrivatePageError)
  deriving Repr, DecidableEq

structure Prot where
  read : Bool
  write : Bool
  execute : Bool
  deriving Repr, DecidableEq

structure VmEntryFlags where
  shared : Bool
  growsDown : Bool
  locked : Bool
  deriving Repr, DecidableEq

/-- Kernel-owned frames mapped into user address spaces. -/
inductive VmSpecialBacking
  | vvar
  | vdsoText
  deriving Repr, DecidableEq

inductive VmEntryBacking
  | none
  | privateAnon
  | page (offset : UInt64)
  deriving Repr, DecidableEq

inductive VmBacking
  | none
  | privateAnon
  | special (s : VmSpecialBacking)
  | page (pc : ℕ) (offset : UInt64)
  deriving Repr, DecidableEq

structure UfdRegistration where
  ufdId : UInt64
  mode : UInt64
  deriving Repr, DecidableEq

structure VmEntryOwners where
  page : Option ℕ
  priv : Option ℕ
  special : Option VmSpecialBacking
  deriving Repr, DecidableEq

/-- A mapping. A page-backed entry has a page container, and the kernel's frames stand behind no
other backing. -/
structure VmEntry where
  range : UserRange
  prot : Prot
  flags : VmEntryFlags
  backing : VmEntryBacking
  ufdRegistration : Option UfdRegistration
  owners : VmEntryOwners
  page_owner : ∀ offset, backing = .page offset → owners.page.isSome
  special_backing : owners.special.isSome → backing = .none
  deriving DecidableEq

instance : Span VmEntry where
  lo e := e.range.start
  hi e := e.range.stop
  lo_lt_hi e := e.range.start_lt_stop

@[simp] lemma lo_eq (e : VmEntry) : Span.lo e = e.range.start := rfl
@[simp] lemma hi_eq (e : VmEntry) : Span.hi e = e.range.stop := rfl

namespace VmEntry

def new (range : UserRange) (prot : Prot) (flags : VmEntryFlags) : VmBacking → VmEntry
  | .none => ⟨range, prot, flags, .none, none, ⟨none, none, none⟩, by simp, by simp⟩
  | .privateAnon => ⟨range, prot, flags, .privateAnon, none, ⟨none, none, none⟩, by simp, by simp⟩
  | .special s => ⟨range, prot, flags, .none, none, ⟨none, none, some s⟩, by simp, by simp⟩
  | .page pc offset =>
    ⟨range, prot, flags, .page offset, none, ⟨some pc, none, none⟩, by simp, by simp⟩

def anon (range : UserRange) : VmEntry :=
  new range ⟨true, true, false⟩ ⟨false, false, false⟩ .privateAnon

def withPrivate (e : VmEntry) (set : Option ℕ) : VmEntry :=
  { e with
    owners := { e.owners with priv := set }
    page_owner := e.page_owner
    special_backing := e.special_backing }

def withLocked (e : VmEntry) (locked : Bool) : VmEntry :=
  { e with flags := { e.flags with locked := locked } }

def withRangePreservingOwners (e : VmEntry) (range : UserRange) : VmEntry :=
  { e with range := range }

/-- A private mapping that may be written needs a private page set. -/
abbrev needsPrivate (flags : VmEntryFlags) (prot : Prot) : Bool := prot.write && !flags.shared

end VmEntry

def checkedAdd (a : UInt64) (n : ℕ) : Option UInt64 :=
  if h : a.toNat + n < 2 ^ 64 then some (UInt64.ofNatLT (a.toNat + n) h) else none

lemma checkedAdd_eq_some {a b : UInt64} {n : ℕ} :
    checkedAdd a n = some b ↔ b.toNat = a.toNat + n := by
  unfold checkedAdd
  split_ifs with h
  · simp only [Option.some.injEq]
    constructor
    · rintro rfl
      rfl
    · intro hb
      exact UInt64.toNat_inj.mp hb.symm
  · have := b.toNat_lt
    simp only [false_iff]
    omega

lemma checkedAdd_eq_none {a : UInt64} {n : ℕ} : checkedAdd a n = none ↔ 2 ^ 64 ≤ a.toNat + n := by
  unfold checkedAdd
  split_ifs with h <;> simp <;> omega

namespace VmEntry

def sameBacking (e other : VmEntry) : Bool :=
  match e.backing, other.backing with
  | .none, .none => e.owners.special = other.owners.special
  | .privateAnon, .privateAnon => true
  | .page l, .page r => l = r ∧ e.owners.page = other.owners.page
  | _, _ => false

/-- Whether `other`, placed right after `e`, continues the same backing byte stream. -/
def hasContiguousBackingWith (e other : VmEntry) : Bool :=
  match e.backing, other.backing with
  | .none, .none | .privateAnon, .privateAnon => true
  | .page l, .page r => e.owners.page = other.owners.page ∧ checkedAdd l e.range.len = some r
  | _, _ => false

def pageOffsetOf (e : VmEntry) (addr : ℕ) : Option ℕ :=
  if e.range.containsAddr addr then some ((addr - e.range.start) / userPageSize) else none

end VmEntry

/-- What a page reads from: for a page-backed mapping the container and the file offset, for the
kernel's frames which of them. -/
inductive PageBacking
  | none
  | privateAnon
  | special (s : VmSpecialBacking) (frame : ℕ)
  | page (pc : Option ℕ) (offset : ℕ)
  deriving Repr, DecidableEq

/-- What the mapping says about one page. -/
structure PageMeaning where
  prot : Prot
  flags : VmEntryFlags
  ufdRegistration : Option UfdRegistration
  backing : PageBacking
  deriving Repr, DecidableEq

namespace VmEntry

/-- The frames of the vdso text are counted from the start of the entry, as `materialize_special`
does. -/
def backingAt (e : VmEntry) (addr : ℕ) : PageBacking :=
  match e.owners.special, e.backing with
  | some .vvar, _ => .special .vvar 0
  | some .vdsoText, _ => .special .vdsoText ((addr - e.range.start) / userPageSize)
  | none, .none => .none
  | none, .privateAnon => .privateAnon
  | none, .page offset => .page e.owners.page (offset.toNat + (addr - e.range.start))

def meaningAt (e : VmEntry) (addr : ℕ) : PageMeaning :=
  ⟨e.prot, e.flags, e.ufdRegistration, e.backingAt addr⟩

end VmEntry

end TxKernel.Vm
