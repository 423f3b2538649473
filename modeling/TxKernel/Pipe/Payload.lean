import TxKernel.Pipe.Ring

/-!
The steps of a pipe, with the counts of the open ends. Wake-ups are left out; a step that would wait
says for which side.
-/

namespace TxKernel.Pipe

inductive StepOutcome (α : Type)
  | done (value : α)
  | err (e : Errno)
  | waitReadable
  | waitWritable
  deriving DecidableEq

structure PipePayload where
  ring : PipeRing
  readerCount : ℕ
  writerCount : ℕ
  deriving DecidableEq

structure LeasePart where
  frame : Page
  offset : ℕ
  len : ℕ
  inPage : offset + len ≤ userPageSize

structure UserPageGift where
  frame : Page
  len : ℕ
  inPage : len ≤ userPageSize

def LeasePart.buf (l : LeasePart) (packetMode : Bool) : PipeBuf :=
  ⟨.pageBackedLease l.frame, l.offset, l.len, .fixed packetMode⟩

def UserPageGift.buf (g : UserPageGift) (packetMode : Bool) : PipeBuf :=
  ⟨.userPageGift g.frame, 0, g.len, .fixed packetMode⟩

namespace PipePayload

variable {α : Type}

def new : PipePayload := ⟨.new, 1, 1⟩

/-- What a step does that found nothing to read: the end of the stream if no writer is left. -/
def onEmpty (p : PipePayload) (atEnd : α) (nonblocking : Bool) : StepOutcome α :=
  if p.writerCount = 0 then .done atEnd
  else if nonblocking then .err .eagain
  else .waitReadable

def onFull (nonblocking : Bool) : StepOutcome α :=
  if nonblocking then .err .eagain else .waitWritable

def stepRead (p : PipePayload) (len : ℕ) (nonblocking : Bool) :
    Option (PipePayload × StepOutcome (List UInt8)) :=
  if len = 0 then some (p, .done [])
  else if p.ring.isEmpty then some (p, p.onEmpty [] nonblocking)
  else do
    let (out, ring) ← p.ring.drainToSlice len
    some ({ p with ring }, .done out)

def stepPeek (p : PipePayload) (len : ℕ) (nonblocking : Bool) :
    Option (PipePayload × StepOutcome (List UInt8)) :=
  if len = 0 then some (p, .done [])
  else if p.ring.isEmpty then some (p, p.onEmpty [] nonblocking)
  else do
    let out ← p.ring.copyToSlice len
    some (p, .done out)

def stepWrite (p : PipePayload) (bytes : List UInt8) (nonblocking packetMode : Bool) :
    Option (PipePayload × StepOutcome ℕ) :=
  if bytes = [] then some (p, .done 0)
  else if p.readerCount = 0 then some (p, .err .epipe)
  else if bytes.length ≤ pipeBufLimit && !p.ring.canWriteAtomic bytes.length packetMode then
    some (p, onFull nonblocking)
  else if !p.ring.isFull || 0 < p.ring.availableWriteCapacity then do
    let (copied, ring) ← p.ring.fillFromSlice bytes packetMode
    if 0 < copied then some ({ p with ring }, .done copied)
    else some ({ p with ring }, onFull nonblocking)
  else some (p, onFull nonblocking)

def stepPushPageLease (p : PipePayload) (lease : LeasePart) (nonblocking packetMode : Bool) :
    PipePayload × StepOutcome ℕ :=
  if lease.len = 0 then (p, .done 0)
  else if p.readerCount = 0 then (p, .err .epipe)
  else if p.ring.isFull then (p, onFull nonblocking)
  else ({ p with ring := p.ring.pushBuf (lease.buf packetMode) }, .done lease.len)

def stepPopPageLease (p : PipePayload) (nonblocking : Bool) :
    Option (PipePayload × StepOutcome (Option PipeBuf)) := do
  match ← p.ring.popFrontLease with
  | some (buf, ring) => some ({ p with ring }, .done (some buf))
  | none => some (p, p.onEmpty none nonblocking)

def stepReserveUserPageGiftSlot (p : PipePayload) (nonblocking : Bool) :
    PipePayload × StepOutcome Unit :=
  if p.readerCount = 0 then (p, .err .epipe)
  else if p.ring.isFull then (p, onFull nonblocking)
  else
    ({ p with ring := { p.ring with reservedGiftSlots := p.ring.reservedGiftSlots + 1 } }, .done ())

def releaseUserPageGiftSlot (p : PipePayload) : PipePayload :=
  { p with ring := { p.ring with reservedGiftSlots := p.ring.reservedGiftSlots - 1 } }

def commitUserPageGift (p : PipePayload) (gift : UserPageGift) (packetMode : Bool) :
    PipePayload × StepOutcome ℕ :=
  if gift.len = 0 then (p.releaseUserPageGiftSlot, .done 0)
  else if p.ring.reservedGiftSlots = 0 then (p, .err .einval)
  else
    let ring := { p.ring with reservedGiftSlots := p.ring.reservedGiftSlots - 1 }
    ({ p with ring := ring.pushBuf (gift.buf packetMode) }, .done gift.len)

def stepPushUserPageGift (p : PipePayload) (gift : UserPageGift) (nonblocking packetMode : Bool) :
    PipePayload × StepOutcome ℕ :=
  if gift.len = 0 then (p, .done 0)
  else if p.readerCount = 0 then (p, .err .epipe)
  else if p.ring.isFull then (p, onFull nonblocking)
  else ({ p with ring := p.ring.pushBuf (gift.buf packetMode) }, .done gift.len)

def stepPopUserPageGift (p : PipePayload) (nonblocking : Bool) :
    Option (PipePayload × StepOutcome (Option PipeBuf)) := do
  match ← p.ring.popFrontUserPageGift with
  | some (buf, ring) => some ({ p with ring }, .done (some buf))
  | none =>
    if p.ring.isEmpty then some (p, p.onEmpty none nonblocking) else some (p, .done none)

def setPipeSizeBytes (p : PipePayload) (requested : ℕ) : PipePayload × Except Errno ℕ :=
  let (ring, answer) := p.ring.setPipeSizeBytes requested
  ({ p with ring }, answer)

def incrReader (p : PipePayload) : PipePayload := { p with readerCount := p.readerCount + 1 }

def incrWriter (p : PipePayload) : PipePayload := { p with writerCount := p.writerCount + 1 }

def decrReader (p : PipePayload) : PipePayload := { p with readerCount := p.readerCount - 1 }

def decrWriter (p : PipePayload) : PipePayload := { p with writerCount := p.writerCount - 1 }

def transferOutcome (src : PipePayload) (copied : ℕ) (srcEmpty dstAccepts nonblocking : Bool) :
    StepOutcome ℕ :=
  if 0 < copied then .done copied
  else if srcEmpty && src.writerCount == 0 then .done 0
  else if nonblocking then .err .eagain
  else if srcEmpty then .waitReadable
  else if !dstAccepts then .waitWritable
  else .waitReadable

def packetOut (src : PipePayload) (packetMode : Bool) : Bool :=
  packetMode || (src.ring.bufs.head?.any PipeBuf.isPacket)

def stepSpliceToPipe (src dst : PipePayload) (len : ℕ) (nonblocking packetMode : Bool) :
    Option (PipePayload × PipePayload × StepOutcome ℕ) :=
  if len = 0 then some (src, dst, .done 0)
  else if dst.readerCount = 0 then some (src, dst, .err .epipe)
  else
    let srcEmpty := src.ring.isEmpty
    let dstAccepts := dst.ring.canAcceptTransfer (src.packetOut packetMode)
    if srcEmpty || !dstAccepts then
      some (src, dst, src.transferOutcome 0 srcEmpty dstAccepts nonblocking)
    else do
      let (copied, r, d) ← src.ring.drainToRing dst.ring len packetMode
      some ({ src with ring := r }, { dst with ring := d },
        src.transferOutcome copied srcEmpty dstAccepts nonblocking)

def stepTeeToPipe (src dst : PipePayload) (len : ℕ) (nonblocking packetMode : Bool) :
    Option (PipePayload × PipePayload × StepOutcome ℕ) :=
  if len = 0 then some (src, dst, .done 0)
  else if dst.readerCount = 0 then some (src, dst, .err .epipe)
  else
    let srcEmpty := src.ring.isEmpty
    let dstAccepts := dst.ring.canAcceptTransfer (src.packetOut packetMode)
    if srcEmpty || !dstAccepts then
      some (src, dst, src.transferOutcome 0 srcEmpty dstAccepts nonblocking)
    else do
      let (copied, d) ← src.ring.teeToRing dst.ring len packetMode
      some (src, { dst with ring := d },
        src.transferOutcome copied srcEmpty dstAccepts nonblocking)

end PipePayload

end TxKernel.Pipe
