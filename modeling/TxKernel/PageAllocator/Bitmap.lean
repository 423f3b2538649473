import Mathlib.Logic.Function.Basic
import TxKernel.PageAllocator.FrameMeta

/-!
The bitmap backend of the page allocator. Row `i` of the metadata and bit `i` of the bitmap belong
to frame `base + i`; bit `b` of word `w` is bit `64 * w + b`. Operations run one at a time; `none`
is a panic, or a loop that does not end.
-/

namespace TxKernel.PageAllocator

def wordSize : ℕ := 18446744073709551616

/-- The covered frames, the frames that are free at boot (`pool`) and those that are then reserved
(`firm`). -/
structure Layout where
  base : ℕ
  total : ℕ
  words : ℕ
  zeroer : Bool
  pool : ℕ → Bool
  firm : ℕ → Bool
  total_lt : total < wordSize
  fits : base + total ≤ wordSize
  covers : total ≤ 64 * words
  pool_firm : ∀ p, pool p = true → firm p = false

@[ext]
structure Alloc where
  metas : ℕ → FrameMeta
  bits : ℕ → Bool
  /-- The count in an atomic word, which wraps. -/
  free : BitVec 64
  hint : ℕ

inductive ZeroPolicy where
  | zeroed
  | uninitFullOverwrite
deriving DecidableEq

namespace Layout

def Covers (L : Layout) (ppn : ℕ) : Prop := L.base ≤ ppn ∧ ppn < L.base + L.total

instance (L : Layout) (ppn : ℕ) : Decidable (L.Covers ppn) :=
  inferInstanceAs (Decidable (_ ∧ _))

def denseIndex (L : Layout) (ppn : ℕ) : Option ℕ :=
  if L.Covers ppn then some (ppn - L.base) else none

lemma denseIndex_eq {L : Layout} {ppn : ℕ} (h : L.Covers ppn) :
    L.denseIndex ppn = some (ppn - L.base) := if_pos h

def freeBits (L : Layout) (bits : ℕ → Bool) : ℕ := (List.range L.total).countP bits

def boot (L : Layout) : Alloc where
  metas i := { FrameMeta.new with reserved := L.firm (L.base + i) }
  bits i := decide (i < L.total) && L.pool (L.base + i)
  free := .ofNat 64 (L.freeBits fun i => decide (i < L.total) && L.pool (L.base + i))
  hint := 0

end Layout

namespace Alloc

def setMeta (a : Alloc) (i : ℕ) (m : FrameMeta) : Alloc :=
  { a with metas := Function.update a.metas i m }

def setBit (a : Alloc) (i : ℕ) (b : Bool) : Alloc :=
  { a with bits := Function.update a.bits i b }

variable (L : Layout)

def takeFirstFreeFromWord (a : Alloc) (word : ℕ) : Option ℕ :=
  ((List.range 64).find? fun b => decide (word * 64 + b < L.total) && a.bits (word * 64 + b)).map
    fun b => word * 64 + b

/-- The loop over all words. A free bit of a frame that is in use is cleared and passed over. -/
def reserveScan (start : ℕ) : List ℕ → Alloc → Except AllocError ℕ × Alloc
  | [], a => (.error .exhausted, a)
  | offset :: rest, a =>
    let word := (start + offset) % L.words
    match a.takeFirstFreeFromWord L word with
    | none => reserveScan start rest a
    | some i =>
      let a1 : Alloc := { a.setBit i false with hint := word, free := a.free - 1 }
      if (a1.metas i).reserved || decide ((a1.metas i).state ≠ 0) then reserveScan start rest a1
      else (.ok (L.base + i), a1)

def reserveSinglePpn (a : Alloc) : Except AllocError ℕ × Alloc :=
  if L.total = 0 ∨ L.words = 0 then (.error .exhausted, a)
  else reserveScan L (a.hint % L.words) (List.range L.words) a

def alignUp (value align : ℕ) : Option ℕ :=
  if value % align = 0 then some value
  else if value + (align - value % align) < wordSize then some (value + (align - value % align))
  else none

def nextFreeScan (a : Alloc) (endDense : ℕ) : ℕ → ℕ → ℕ → Option (Option ℕ)
  | 0, _, _ => none
  | fuel + 1, word, floor =>
    if word * 64 < endDense then
      if L.words ≤ word then none
      else
        match (List.range 64).find? fun b =>
            decide (floor ≤ b) && decide (word * 64 + b < L.total) && a.bits (word * 64 + b) with
        | some b =>
          if endDense ≤ word * 64 + b then some none else some (some (L.base + (word * 64 + b)))
        | none => nextFreeScan a endDense fuel (word + 1) 0
    else some none

def nextFreePpnAtOrAfter (a : Alloc) (start limit : ℕ) : Option (Option ℕ) :=
  if limit ≤ start then some none
  else (L.denseIndex start).bind fun i =>
    a.nextFreeScan L (i + (limit - start)) (L.words + 1) (i / 64) (i % 64)

def metasUnused (a : Alloc) (base : ℕ) : List ℕ → Option Bool
  | [] => some true
  | offset :: rest => (L.denseIndex (base + offset)).bind fun i =>
    if (a.metas i).reserved || decide ((a.metas i).state ≠ 0) then some false
    else metasUnused a base rest

def restoreCandidateRun (a : Alloc) (base count : ℕ) : Alloc :=
  (List.range count).foldl (fun a offset => a.setBit (base + offset - L.base) true) a

def claimRun (base : ℕ) : ℕ → ℕ → Alloc → Option (Bool × Alloc)
  | 0, _, a => some (true, a)
  | rest + 1, claimed, a => (L.denseIndex (base + claimed)).bind fun i =>
    if a.bits i then claimRun base rest (claimed + 1) (a.setBit i false)
    else some (false, a.restoreCandidateRun L base claimed)

def tryReserveRunAt (a : Alloc) (base count : ℕ) : Option (Bool × Alloc) :=
  (a.metasUnused L base (List.range count)).bind fun unused =>
    if unused then claimRun L base count 0 a else some (false, a)

def scanRuns (count align rangeEnd baseLimit : ℕ) : ℕ → ℕ → Alloc → Option (Option ℕ × Alloc)
  | 0, _, _ => none
  | fuel + 1, base, a =>
    if base < baseLimit ∧ base + count < wordSize ∧ base + count ≤ rangeEnd then
      (L.denseIndex base).bind fun i =>
        if a.bits i then
          (a.tryReserveRunAt L base count).bind fun r =>
            if r.1 then
              some (some base, { r.2 with free := r.2.free - .ofNat 64 count, hint := i / 64 })
            else if base + align < wordSize then
              scanRuns count align rangeEnd baseLimit fuel (base + align) r.2
            else some (none, r.2)
        else
          (a.nextFreePpnAtOrAfter L (base + 1) baseLimit).bind fun
            | none => some (none, a)
            | some next =>
              match alignUp next align with
              | none => some (none, a)
              | some aligned => scanRuns count align rangeEnd baseLimit fuel aligned a
    else some (none, a)

def reserveContiguousPpns (a : Alloc) (count align : ℕ) : Option (Except AllocError ℕ × Alloc) :=
  if count = 0 ∨ align = 0 ∨ L.total < count then some (.error .invalidRequest, a)
  else if wordSize ≤ L.base + L.total then some (.error .invalidRequest, a)
  else
    match alignUp L.base align with
    | none => some (.error .invalidRequest, a)
    | some rangeBase =>
      if L.total = 0 ∨ L.words = 0 then some (.error .exhausted, a)
      else
        let rangeEnd := L.base + L.total
        let hintWord := a.hint % L.words
        if hintWord * 64 < L.total then
          let hintPpn := L.base + hintWord * 64
          let hintBase := min ((alignUp (max hintPpn rangeBase) align).getD rangeBase) rangeEnd
          (scanRuns L count align rangeEnd rangeEnd (L.total + 1) hintBase a).bind fun r =>
            match r.1 with
            | some base => some (.ok base, r.2)
            | none =>
              (scanRuns L count align rangeEnd hintBase (L.total + 1) rangeBase r.2).map fun r2 =>
                match r2.1 with
                | some base => (.ok base, r2.2)
                | none => (.error .exhausted, r2.2)
        else none

def returnToFreePool (a : Alloc) (i : ℕ) : Alloc :=
  if (a.metas i).reserved then a
  else if a.bits i then a.setBit i true
  else { a.setBit i true with free := a.free + 1 }

def releaseWhenZero (a : Alloc) (i stateAfter : ℕ) : Alloc :=
  if stateAfter = 0 then a.returnToFreePool i else a

def returnClaimedRun : ℕ → ℕ → Alloc → Option Alloc
  | _, 0, a => some a
  | base, count + 1, a => (L.denseIndex base).bind fun i =>
    returnClaimedRun (base + 1) count
      (if a.bits i then a.setBit i true else { a.setBit i true with free := a.free + 1 })

def zeroable (policy : ZeroPolicy) : Bool :=
  match policy with
  | .uninitFullOverwrite => true
  | .zeroed => L.zeroer

def rollbackReserved (a : Alloc) (ppn : ℕ) : Option Alloc :=
  (L.denseIndex ppn).map fun i => a.returnToFreePool i

def reserveFrame (a : Alloc) (policy : ZeroPolicy) : Option (Except AllocError ℕ × Alloc) :=
  match a.reserveSinglePpn L with
  | (.error err, a1) => some (.error err, a1)
  | (.ok ppn, a1) =>
    if zeroable L policy then some (.ok ppn, a1)
    else (a1.rollbackReserved L ppn).map fun a2 => (.error .zeroScrubUnavailable, a2)

def reserveRun (a : Alloc) (count align : ℕ) (policy : ZeroPolicy) :
    Option (Except AllocError ℕ × Alloc) :=
  (a.reserveContiguousPpns L count align).bind fun r =>
    match r.1 with
    | .error err => some (.error err, r.2)
    | .ok base =>
      if (List.range count).all fun _ => zeroable L policy then some (.ok base, r.2)
      else (returnClaimedRun L base count r.2).map fun a2 => (.error .zeroScrubUnavailable, a2)

def commitReserved (a : Alloc) (ppn : ℕ) : Option Alloc :=
  (L.denseIndex ppn).bind fun i =>
    match (a.metas i).claimOwned with
    | .ok m => some (a.setMeta i m)
    | .error _ => none

def commitReservedRun : ℕ → ℕ → Alloc → Option Alloc
  | _, 0, a => some a
  | base, count + 1, a =>
    (a.commitReserved L base).bind fun a1 => commitReservedRun (base + 1) count a1

def acquireWith (c : Counter) (a : Alloc) (ppn : ℕ) : Option (Except AllocError Unit × Alloc) :=
  (L.denseIndex ppn).map fun i =>
    match (a.metas i).incrementCounter c with
    | .ok m => (.ok (), a.setMeta i m)
    | .error err => (.error err, a)

def acquireMapPin (a : Alloc) (ppn : ℕ) := acquireWith L .mapCount a ppn
def acquireCachePin (a : Alloc) (ppn : ℕ) := acquireWith L .cacheRef a ppn
def acquireGiftPin (a : Alloc) (ppn : ℕ) := acquireWith L .refcount a ppn

/-- Lower a counter; at zero the frame returns to the pool. -/
def releaseWith (c : Counter) (a : Alloc) (ppn : ℕ) : Option Alloc :=
  (L.denseIndex ppn).bind fun i =>
    match (a.metas i).decrementCounter c with
    | .ok m => some ((a.setMeta i m).releaseWhenZero i m.state)
    | .error _ => none

def releaseMapPin (a : Alloc) (ppn : ℕ) := releaseWith L .mapCount a ppn
def releaseCachePin (a : Alloc) (ppn : ℕ) := releaseWith L .cacheRef a ppn
def releaseDmaPin (a : Alloc) (ppn : ℕ) := releaseWith L .pinCount a ppn
def releaseGiftPin (a : Alloc) (ppn : ℕ) := releaseWith L .refcount a ppn
def releaseOwned (a : Alloc) (ppn : ℕ) := releaseWith L .refcount a ppn

/-- The flag is tested before and after the pin is taken. -/
def acquireDmaPin (a : Alloc) (ppn : ℕ) : Option (Except AllocError Unit × Alloc) :=
  (L.denseIndex ppn).bind fun i =>
    if (a.metas i).reserved then some (.error .reservedFrame, a)
    else
      match (a.metas i).incrementCounter .pinCount with
      | .error err => some (.error err, a)
      | .ok m =>
        if m.reserved then
          (releaseWith L .pinCount (a.setMeta i m) ppn).map fun a1 => (.error .reservedFrame, a1)
        else some (.ok (), a.setMeta i m)

def releaseRun (c : Counter) : ℕ → ℕ → Alloc → Option Alloc
  | _, 0, a => some a
  | base, count + 1, a =>
    (releaseWith L c a base).bind fun a1 => releaseRun c (base + 1) count a1

def releaseMapPinsDown (base : ℕ) : ℕ → Alloc → Option Alloc
  | 0, a => some a
  | acquired + 1, a =>
    (a.releaseMapPin L (base + acquired)).bind fun a1 => releaseMapPinsDown base acquired a1

def acquireMapPinRun (base : ℕ) : ℕ → ℕ → Alloc → Option (Except AllocError Unit × Alloc)
  | 0, _, a => some (.ok (), a)
  | rest + 1, acquired, a => (a.acquireMapPin L (base + acquired)).bind fun r =>
    match r.1 with
    | .ok _ => acquireMapPinRun base rest (acquired + 1) r.2
    | .error err => (releaseMapPinsDown L base acquired r.2).map fun a1 => (.error err, a1)

def adoptPageTableFrame (a : Alloc) (ppn : ℕ) : Option Alloc :=
  (L.denseIndex ppn).map fun i => a.setMeta i (a.metas i).markReserved.markDirectMapped

def adoptPermanentFrame (a : Alloc) (ppn : ℕ) : Option Alloc :=
  (L.denseIndex ppn).map fun i => a.setMeta i (a.metas i).markPermanent

def releasePageTableFrame (a : Alloc) (ppn : ℕ) : Option Alloc :=
  (L.denseIndex ppn).bind fun i =>
    if (a.metas i).permanent then none
    else
      (a.metas i).clearReserved.bind fun m =>
        m.clearDirectMapped.bind fun m => (a.setMeta i m).releaseOwned L ppn

def claimPermanentFrame (a : Alloc) (ppn : ℕ) : Option (Except AllocError Unit × Alloc) :=
  (L.denseIndex ppn).map fun i =>
    let wasFree := a.bits i
    let a1 : Alloc := if wasFree then { a.setBit i false with free := a.free - 1 } else a
    match (a1.metas i).claimPermanent with
    | .error err =>
      (.error err, if wasFree then { a1.setBit i true with free := a1.free + 1 } else a1)
    | .ok m => (.ok (), a1.setMeta i m.markPermanent)

end Alloc

end TxKernel.PageAllocator
