import TxKernel.PageAllocator.Bitmap

/-!
The tokens of the page allocator, named by their place in the list of live ones. An operation that
the type system does not admit on its token changes nothing. A `PtFrame` is given back through the
teardown of its page table, and a `PermanentFrame` never.
-/

namespace TxKernel.PageAllocator

inductive Token where
  | frameReservation (ppn : ℕ)
  | frameRunReservation (base count : ℕ)
  | ownedFrame (ppn : ℕ)
  | ownedFrameRun (base count : ℕ)
  | ownedFrameRunIter (base count next : ℕ)
  | mapPin (ppn : ℕ)
  | mapPinRun (base count : ℕ)
  | cachePin (ppn : ℕ)
  | dmaPin (ppn : ℕ)
  | giftPin (ppn : ℕ)
  | ptFrame (ppn : ℕ)
  | permanentFrame (ppn : ℕ)
deriving DecidableEq

namespace Token

def kind : Token → Kind
  | frameReservation _ | frameRunReservation _ _ => .reservation
  | ownedFrame _ | ownedFrameRun _ _ | ownedFrameRunIter _ _ _ => .owner
  | mapPin _ | mapPinRun _ _ => .map
  | cachePin _ => .cache
  | dmaPin _ => .dma
  | giftPin _ => .gift
  | ptFrame _ => .pageTable
  | permanentFrame _ => .permanent

def first : Token → ℕ
  | frameRunReservation base _ | ownedFrameRun base _ | mapPinRun base _ => base
  | ownedFrameRunIter base _ next => base + next
  | frameReservation ppn | ownedFrame ppn | mapPin ppn | cachePin ppn | dmaPin ppn | giftPin ppn
  | ptFrame ppn | permanentFrame ppn => ppn

def count : Token → ℕ
  | frameRunReservation _ count | ownedFrameRun _ count | mapPinRun _ count => count
  | ownedFrameRunIter _ count next => count - next
  | frameReservation _ | ownedFrame _ | mapPin _ | cachePin _ | dmaPin _ | giftPin _ | ptFrame _
  | permanentFrame _ => 1

def Holds (t : Token) (ppn : ℕ) : Prop := t.first ≤ ppn ∧ ppn < t.first + t.count

instance (t : Token) (ppn : ℕ) : Decidable (t.Holds ppn) := inferInstanceAs (Decidable (_ ∧ _))

end Token

def holders (tokens : List Token) (ppn : ℕ) : Holders := fun k =>
  tokens.countP fun t => decide (t.kind = k ∧ t.Holds ppn)

structure World where
  alloc : Alloc
  tokens : List Token

/-- An operation; `i` is the place of its token. Pins are also taken by the number of a frame. -/
inductive Op where
  | reserveFrame (policy : ZeroPolicy)
  | reserveRun (count align : ℕ) (policy : ZeroPolicy)
  | commit (i : ℕ)
  | dropToken (i : ℕ)
  | split (i : ℕ)
  | iterNext (i : ℕ)
  | tryMapPin (i : ℕ)
  | tryMapPinRun (i : ℕ)
  | tryCachePin (i : ℕ)
  | tryDmaPin (i : ℕ)
  | tryGiftPin (i : ℕ)
  | acquireMapPin (ppn : ℕ)
  | acquireCachePin (ppn : ℕ)
  | acquireDmaPin (ppn : ℕ)
  | acquireGiftPin (ppn : ℕ)
  | intoPageTableFrame (i : ℕ)
  | intoPermanentFrame (i : ℕ)
  | releaseForPmapTeardown (i : ℕ)
  | claimPermanentFrame (ppn : ℕ)
deriving DecidableEq

namespace World

variable (L : Layout)

def boot : World := ⟨L.boot, []⟩

/-- The answer of an operation: the error, if there was one. -/
abbrev Answer := Option AllocError

def grant {α : Type} (w : World) (token : α → Token) (r : Except AllocError α × Alloc) :
    World × Answer :=
  match r.1 with
  | .ok x => (⟨r.2, token x :: w.tokens⟩, none)
  | .error err => (⟨r.2, w.tokens⟩, some err)

def replace (w : World) (i : ℕ) (new : List Token) (a : Alloc) : World × Answer :=
  (⟨a, new ++ w.tokens.eraseIdx i⟩, none)

def release (a : Alloc) : Token → Option Alloc
  | .frameReservation ppn => a.rollbackReserved L ppn
  | .frameRunReservation base count => Alloc.returnClaimedRun L base count a
  | .ownedFrame ppn => a.releaseOwned L ppn
  | .ownedFrameRun base count => Alloc.releaseRun L .refcount base count a
  | .ownedFrameRunIter base count next =>
    Alloc.releaseRun L .refcount (base + next) (count - next) a
  | .mapPin ppn => a.releaseMapPin L ppn
  | .mapPinRun base count => Alloc.releaseRun L .mapCount base count a
  | .cachePin ppn => a.releaseCachePin L ppn
  | .dmaPin ppn => a.releaseDmaPin L ppn
  | .giftPin ppn => a.releaseGiftPin L ppn
  | .ptFrame _ | .permanentFrame _ => some a

def step (w : World) : Op → Option (World × Answer)
  | .reserveFrame policy => (w.alloc.reserveFrame L policy).map (w.grant .frameReservation)
  | .reserveRun count align policy =>
    (w.alloc.reserveRun L count align policy).map
      (w.grant fun base => .frameRunReservation base count)
  | .commit i =>
    match w.tokens[i]? with
    | some (.frameReservation ppn) =>
      (w.alloc.commitReserved L ppn).map (w.replace i [.ownedFrame ppn])
    | some (.frameRunReservation base count) =>
      (Alloc.commitReservedRun L base count w.alloc).map (w.replace i [.ownedFrameRun base count])
    | _ => some (w, none)
  | .dropToken i =>
    match w.tokens[i]? with
    | none | some (.ptFrame _) | some (.permanentFrame _) => some (w, none)
    | some t => (release L w.alloc t).map (w.replace i [])
  | .split i =>
    match w.tokens[i]? with
    | some (.ownedFrameRun base count) =>
      some (w.replace i [.ownedFrameRunIter base count 0] w.alloc)
    | _ => some (w, none)
  | .iterNext i =>
    match w.tokens[i]? with
    | some (.ownedFrameRunIter base count next) =>
      if next = count then some (w, none)
      else some (w.replace i
        [.ownedFrame (base + next), .ownedFrameRunIter base count (next + 1)] w.alloc)
    | _ => some (w, none)
  | .tryMapPin i =>
    match w.tokens[i]? with
    | some (.ownedFrame ppn) => (w.alloc.acquireMapPin L ppn).map (w.grant fun _ => .mapPin ppn)
    | _ => some (w, none)
  | .tryMapPinRun i =>
    match w.tokens[i]? with
    | some (.ownedFrameRun base count) =>
      (Alloc.acquireMapPinRun L base count 0 w.alloc).map (w.grant fun _ => .mapPinRun base count)
    | _ => some (w, none)
  | .tryCachePin i =>
    match w.tokens[i]? with
    | some (.ownedFrame ppn) => (w.alloc.acquireCachePin L ppn).map (w.grant fun _ => .cachePin ppn)
    | _ => some (w, none)
  | .tryDmaPin i =>
    match w.tokens[i]? with
    | some (.ownedFrame ppn) => (w.alloc.acquireDmaPin L ppn).map (w.grant fun _ => .dmaPin ppn)
    | _ => some (w, none)
  | .tryGiftPin i =>
    match w.tokens[i]? with
    | some (.ownedFrame ppn) => (w.alloc.acquireGiftPin L ppn).map (w.grant fun _ => .giftPin ppn)
    | _ => some (w, none)
  | .acquireMapPin ppn => (w.alloc.acquireMapPin L ppn).map (w.grant fun _ => .mapPin ppn)
  | .acquireCachePin ppn => (w.alloc.acquireCachePin L ppn).map (w.grant fun _ => .cachePin ppn)
  | .acquireDmaPin ppn => (w.alloc.acquireDmaPin L ppn).map (w.grant fun _ => .dmaPin ppn)
  | .acquireGiftPin ppn => (w.alloc.acquireGiftPin L ppn).map (w.grant fun _ => .giftPin ppn)
  | .intoPageTableFrame i =>
    match w.tokens[i]? with
    | some (.ownedFrame ppn) => (w.alloc.adoptPageTableFrame L ppn).map (w.replace i [.ptFrame ppn])
    | _ => some (w, none)
  | .intoPermanentFrame i =>
    match w.tokens[i]? with
    | some (.ownedFrame ppn) =>
      (w.alloc.adoptPermanentFrame L ppn).map (w.replace i [.permanentFrame ppn])
    | _ => some (w, none)
  | .releaseForPmapTeardown i =>
    match w.tokens[i]? with
    | some (.ptFrame ppn) => (w.alloc.releasePageTableFrame L ppn).map (w.replace i [])
    | _ => some (w, none)
  | .claimPermanentFrame ppn =>
    (w.alloc.claimPermanentFrame L ppn).map (w.grant fun _ => .permanentFrame ppn)

end World

end TxKernel.PageAllocator
