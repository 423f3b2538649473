import TxKernel.Library.Bytes

/-!
The ring of a pipe: a queue of buffers, each a part of an anonymous, leased or gifted page. Stream
bytes are merged into the last anonymous page; a packet is a buffer of its own. A panic of the
source is `none`.
-/

namespace TxKernel.Pipe

open Bytes

def userPageSize : ℕ := 4096
def pipeBufLimit : ℕ := 4096
def pipeDefBuffers : ℕ := 16
def pipeMaxSize : ℕ := 1024 * 1024
def pipeTmpPages : ℕ := 2

abbrev Page := Buf userPageSize

inductive Errno
  | eagain
  | ebusy
  | einval
  | eperm
  | epipe
  deriving DecidableEq

def checkedSub (a b : ℕ) : Option ℕ := if b ≤ a then some (a - b) else none

/-! ### Buffers -/

inductive PipeStorage
  | anonPage (page : Page)
  | pageBackedLease (frame : Page)
  | userPageGift (frame : Page)
  deriving DecidableEq

def PipeStorage.frame : PipeStorage → Page
  | .anonPage page => page
  | .pageBackedLease frame => frame
  | .userPageGift frame => frame

structure BufFlags where
  canMerge : Bool
  packet : Bool
  deriving DecidableEq

def BufFlags.stream : BufFlags := ⟨true, false⟩

def BufFlags.fixed (packetMode : Bool) : BufFlags := ⟨false, packetMode⟩

structure PipeBuf where
  storage : PipeStorage
  offset : ℕ
  len : ℕ
  flags : BufFlags
  deriving DecidableEq

namespace PipeBuf

def isPacket (b : PipeBuf) : Bool := b.flags.packet

def mergeSpace (b : PipeBuf) : ℕ :=
  if b.flags.canMerge then
    match b.storage with
    | .anonPage _ => userPageSize - (b.offset + b.len)
    | .pageBackedLease _ => 0
    | .userPageGift _ => 0
  else 0

def appendMerge (b : PipeBuf) (bytes : List UInt8) : Option (ℕ × PipeBuf) :=
  let n := min b.mergeSpace bytes.length
  if n = 0 then some (0, b)
  else
    match b.storage with
    | .anonPage page => do
      let page ← page.put (b.offset + b.len) (bytes.take n)
      some (n, { b with storage := .anonPage page, len := b.len + n })
    | _ => some (n, { b with len := b.len + n })

def copyToSlice (b : PipeBuf) (n : ℕ) : Option (List UInt8) :=
  slice b.storage.frame.bytes b.offset n

def clonePrefix (b : PipeBuf) (len : ℕ) : Option PipeBuf :=
  match b.storage with
  | .pageBackedLease _ => some { b with len }
  | _ => none

end PipeBuf

/-! ### The ring -/

structure PipeRing where
  bufs : List PipeBuf
  tmpPages : List Page
  maxUsage : ℕ
  ringSize : ℕ
  bytes : ℕ
  reservedGiftSlots : ℕ
  deriving DecidableEq

/-- The size of a pipe in bytes: a power of two of pages. -/
def roundPipeSize (requested : ℕ) : Option ℕ :=
  let size := max requested userPageSize
  if size + (userPageSize - 1) < 2 ^ 64 then
    let slots := Nat.nextPowerOfTwo ((size + (userPageSize - 1)) / userPageSize)
    if slots * userPageSize < 2 ^ 64 then some (slots * userPageSize) else none
  else none

namespace PipeRing

def new : PipeRing := ⟨[], [], pipeDefBuffers, pipeDefBuffers, 0, 0⟩

def isEmpty (r : PipeRing) : Bool := r.bufs.isEmpty

def occupiedSlots (r : PipeRing) : ℕ := r.bufs.length + r.reservedGiftSlots

def isFull (r : PipeRing) : Bool := r.maxUsage ≤ r.occupiedSlots

def pipeSizeBytes (r : PipeRing) : ℕ := r.maxUsage * userPageSize

def freeSlots (r : PipeRing) : ℕ := r.maxUsage - r.occupiedSlots

def tailMerge (r : PipeRing) : ℕ := (r.bufs.getLast?.map PipeBuf.mergeSpace).getD 0

def availableWriteCapacity (r : PipeRing) : ℕ := r.tailMerge + r.freeSlots * userPageSize

def canWriteAtomic (r : PipeRing) (len : ℕ) (packetMode : Bool) : Bool :=
  if packetMode then len ≤ pipeBufLimit && !r.isFull
  else len ≤ r.availableWriteCapacity

def canAcceptTransfer (r : PipeRing) (packet : Bool) : Bool :=
  if packet then !r.isFull else 0 < r.availableWriteCapacity

def transferCapacity (r : PipeRing) (packet : Bool) : ℕ :=
  if packet then (if r.isFull then 0 else pipeBufLimit) else r.availableWriteCapacity

def setPipeSizeBytes (r : PipeRing) (requested : ℕ) : PipeRing × Except Errno ℕ :=
  match roundPipeSize requested with
  | none => (r, .error .einval)
  | some rounded =>
    if pipeMaxSize < rounded then (r, .error .eperm)
    else
      let slots := rounded / userPageSize
      if slots < r.occupiedSlots then (r, .error .ebusy)
      else
        let r := { r with maxUsage := slots, ringSize := slots }
        (r, .ok r.pipeSizeBytes)

/-- Keep a cleared page for later, if few are kept. -/
def releaseStorage (r : PipeRing) : PipeStorage → PipeRing
  | .anonPage _ =>
    if r.tmpPages.length < pipeTmpPages then { r with tmpPages := .zero _ :: r.tmpPages } else r
  | .pageBackedLease _ => r
  | .userPageGift _ => r

def takeAnonPage (r : PipeRing) : Page × PipeRing :=
  match r.tmpPages with
  | [] => (.zero _, r)
  | page :: tmpPages => (page, { r with tmpPages })

/-- Take up to `n` bytes from the front. A packet ends the read, and its unread rest is dropped. -/
def drain : ℕ → List PipeBuf → PipeRing → Option (List UInt8 × PipeRing)
  | 0, bufs, r => some ([], { r with bufs })
  | _ + 1, [], r => some ([], { r with bufs := [] })
  | n + 1, front :: rest, r => do
    let chunk := min (n + 1) front.len
    let out ← front.copyToSlice chunk
    let left ← checkedSub front.len chunk
    let bytes ← checkedSub r.bytes chunk
    if front.isPacket then
      let bytes ← checkedSub bytes left
      some (out, { r with bytes, bufs := rest }.releaseStorage front.storage)
    else if left = 0 then
      let (more, r) ← drain (n + 1 - chunk) rest ({ r with bytes }.releaseStorage front.storage)
      some (out ++ more, r)
    else
      some (out, { r with bytes, bufs := { front with offset := front.offset + chunk, len := left }
        :: rest })

def drainToSlice (r : PipeRing) (n : ℕ) : Option (List UInt8 × PipeRing) := drain n r.bufs r

def fillPages (flags : BufFlags) (limit : ℕ) :
    ℕ → List UInt8 → PipeRing → Option (ℕ × PipeRing)
  | 0, _, r => some (0, r)
  | slots + 1, bytes, r =>
    if bytes = [] then some (0, r)
    else do
      let (page, r) := r.takeAnonPage
      let chunk := min limit bytes.length
      let page ← page.put 0 (bytes.take chunk)
      let buf : PipeBuf := ⟨.anonPage page, 0, chunk, flags⟩
      let (more, r) ← fillPages flags limit slots (bytes.drop chunk)
        { r with bufs := r.bufs ++ [buf], bytes := r.bytes + chunk }
      some (chunk + more, r)

def fillPacketsFromSlice (r : PipeRing) (bytes : List UInt8) : Option (ℕ × PipeRing) :=
  fillPages ⟨false, true⟩ (min userPageSize pipeBufLimit) r.freeSlots bytes r

def appendTail (r : PipeRing) (bytes : List UInt8) : Option (ℕ × PipeRing) :=
  match r.bufs.getLast? with
  | none => some (0, r)
  | some tail => do
    let (chunk, tail) ← tail.appendMerge bytes
    some (chunk, { r with bufs := r.bufs.dropLast ++ [tail], bytes := r.bytes + chunk })

def fillFromSlice (r : PipeRing) (bytes : List UInt8) (packetMode : Bool) :
    Option (ℕ × PipeRing) :=
  if packetMode then r.fillPacketsFromSlice bytes
  else do
    let (copied, r) ← r.appendTail bytes
    let (more, r) ← fillPages .stream userPageSize r.freeSlots (bytes.drop copied) r
    some (copied + more, r)

def copyFrom : ℕ → List PipeBuf → Option (List UInt8)
  | 0, _ => some []
  | _ + 1, [] => some []
  | n + 1, b :: bufs => do
    let chunk := min (n + 1) b.len
    let out ← b.copyToSlice chunk
    if b.isPacket then some out
    else do
      let more ← copyFrom (n + 1 - chunk) bufs
      some (out ++ more)

def copyToSlice (r : PipeRing) (n : ℕ) : Option (List UInt8) := copyFrom n r.bufs

def pushBuf (r : PipeRing) (b : PipeBuf) : PipeRing :=
  { r with bufs := r.bufs ++ [b], bytes := r.bytes + b.len }

def popWholePage (r : PipeRing) (wanted : PipeStorage → Bool) :
    Option (Option (PipeBuf × PipeRing)) :=
  match r.bufs with
  | [] => some none
  | front :: rest =>
    if wanted front.storage && front.offset == 0 && front.len == userPageSize then do
      let bytes ← checkedSub r.bytes front.len
      some (some (front, { r with bufs := rest, bytes }))
    else some none

def isLease : PipeStorage → Bool
  | .pageBackedLease _ => true
  | _ => false

def isGift : PipeStorage → Bool
  | .userPageGift _ => true
  | _ => false

def popFrontLease (r : PipeRing) : Option (Option (PipeBuf × PipeRing)) := r.popWholePage isLease

def popFrontUserPageGift (r : PipeRing) : Option (Option (PipeBuf × PipeRing)) :=
  r.popWholePage isGift

/-! ### Transfers between rings -/

def pushTransferredBuf (r : PipeRing) (b : PipeBuf) (packetMode : Bool) : PipeRing :=
  if packetMode then r.pushBuf { b with flags := ⟨false, true⟩ } else r.pushBuf b

/-- Move the front buffer as it is, if all of it may go and the other ring has a slot for it. -/
def drainDescriptorToRing (r dst : PipeRing) (limit : ℕ) (packetMode : Bool) :
    Option (Option (ℕ × PipeRing × PipeRing)) :=
  if limit = 0 || dst.isFull then some none
  else
    match r.bufs with
    | [] => some none
    | front :: rest =>
      if packetMode && pipeBufLimit < front.len then some none
      else if min front.len limit = front.len then do
        let bytes ← checkedSub r.bytes front.len
        some (some (front.len, { r with bufs := rest, bytes },
          dst.pushTransferredBuf front packetMode))
      else some none

/-- One turn of the loop that moves up to `remaining` bytes: whether it goes on, the bytes moved and
the two rings. A buffer is moved as it is where possible; other bytes are copied through a page of
`scratch` bytes. -/
def drainTurn (scratch : ℕ) (packetMode : Bool) (remaining : ℕ) (r dst : PipeRing) :
    Option (Bool × ℕ × PipeRing × PipeRing) :=
  match r.bufs with
  | [] => some (false, 0, r, dst)
  | front :: _ =>
    let packetOut := packetMode || front.isPacket
    if remaining = 0 || !dst.canAcceptTransfer packetOut then some (false, 0, r, dst)
    else do
      match ← r.drainDescriptorToRing dst remaining packetMode with
      | some (n, r, dst) => some (!front.isPacket, n, r, dst)
      | none =>
        let target := min scratch (min remaining (dst.transferCapacity packetOut))
        if target = 0 then some (false, 0, r, dst)
        else do
          let (read, r) ← r.drainToSlice target
          if read = [] then some (false, 0, r, dst)
          else do
            let (wrote, dst) ← dst.fillFromSlice read packetOut
            some (!(wrote < read.length || front.isPacket), wrote, r, dst)

/-- Every turn after which the loop goes on has moved at least one byte. -/
def drainLoop (scratch : ℕ) (packetMode : Bool) :
    ℕ → ℕ → PipeRing → PipeRing → Option (ℕ × PipeRing × PipeRing)
  | 0, _, r, dst => some (0, r, dst)
  | fuel + 1, remaining, r, dst => do
    let (goOn, n, r, dst) ← drainTurn scratch packetMode remaining r dst
    if goOn then
      let (more, r, dst) ← drainLoop scratch packetMode fuel (remaining - n) r dst
      some (n + more, r, dst)
    else some (n, r, dst)

def drainToRing (r dst : PipeRing) (len : ℕ) (packetMode : Bool) :
    Option (ℕ × PipeRing × PipeRing) :=
  drainLoop (min len userPageSize) packetMode len len r dst

def teeBuf (b : PipeBuf) (dst : PipeRing) (chunk : ℕ) (packetMode : Bool) :
    Option (ℕ × PipeRing) :=
  match if dst.isFull then none else b.clonePrefix chunk with
  | some clone => some (chunk, dst.pushTransferredBuf clone packetMode)
  | none => do
    let scratch ← b.copyToSlice chunk
    dst.fillFromSlice scratch (packetMode || b.isPacket)

def teeLoop (packetMode : Bool) : List PipeBuf → ℕ → PipeRing → Option (ℕ × PipeRing)
  | [], _, dst => some (0, dst)
  | b :: bufs, remaining, dst =>
    if remaining = 0 then some (0, dst)
    else
      let packetOut := packetMode || b.isPacket
      if dst.canAcceptTransfer packetOut then
        let chunk := min b.len (min remaining (dst.transferCapacity packetOut))
        if chunk = 0 then some (0, dst)
        else do
          let (n, dst) ← teeBuf b dst chunk packetMode
          if b.isPacket then some (n, dst)
          else do
            let (more, dst) ← teeLoop packetMode bufs (remaining - n) dst
            some (n + more, dst)
      else some (0, dst)

def teeToRing (r dst : PipeRing) (len : ℕ) (packetMode : Bool) : Option (ℕ × PipeRing) :=
  teeLoop packetMode r.bufs len dst

end PipeRing

end TxKernel.Pipe
