import Mathlib.Data.List.Basic
import Mathlib.Data.Prod.Lex
import Mathlib.Data.Nat.Basic
import TxKernel.Library.LinearProbe
import TxKernel.Library.HeapOrder

/-!
The queue of the timer engine: a binary heap of deadlines whose entries are found by key through the
open-addressed table `keySlots` and a slot. Slots of dead timers form a free list through their
`heapIndex`. `none` is a panic, or a loop that does not end.
-/

namespace TxKernel.Time

structure TimerKey where
  raw : UInt64
deriving DecidableEq

structure HeapEntry where
  key : TimerKey
  deadlineNs : UInt64
  generation : UInt64
deriving DecidableEq

structure Slot where
  key : TimerKey
  deadlineNs : UInt64
  generation : UInt64
  heapIndex : ℕ
  live : Bool
deriving DecidableEq

structure KeySlot where
  key : TimerKey
  slotIndex : ℕ
deriving DecidableEq

def wordSize : ℕ := 18446744073709551616

def noFreeSlot : ℕ := wordSize - 1

/-- The capacity of a vector after `Vec::reserve`, which at least doubles it when it grows. -/
def reserve (len cap additional : ℕ) : ℕ :=
  if cap - len < additional then max 4 (max (cap * 2) (len + additional)) else cap

lemma add_le_reserve {len cap : ℕ} (h : len ≤ cap) (additional : ℕ) :
    len + additional ≤ reserve len cap additional := by
  unfold reserve
  split_ifs <;> omega

lemma reserve_le {len cap peak : ℕ} (hcap : cap ≤ max 4 (2 * peak)) (hpeak : len + 1 ≤ peak) :
    reserve len cap 1 ≤ max 4 (2 * peak) := by
  unfold reserve
  split_ifs <;> omega

/-- Double the number of entries after one more, if that is a `usize`. -/
def requiredBuckets (len : ℕ) : Option ℕ :=
  if (len + 1) * 2 < wordSize then some ((len + 1) * 2) else none

structure MinHeap where
  heap : List HeapEntry
  heapCap : ℕ
  slots : List Slot
  slotsCap : ℕ
  keySlots : List (Option KeySlot)
  freeHead : ℕ
deriving DecidableEq

namespace MinHeap

def new : MinHeap := ⟨[], 0, [], 0, [], noFreeSlot⟩

def keySlotsCanInsert (h : MinHeap) : Bool :=
  !h.keySlots.isEmpty &&
    match requiredBuckets h.heap.length with
    | none => false
    | some required => decide (required ≤ h.keySlots.length)

def hasInsertCapacity (h : MinHeap) : Bool :=
  decide (h.heap.length < h.heapCap) &&
    (decide (h.freeHead ≠ noFreeSlot) || decide (h.slots.length < h.slotsCap)) &&
    h.keySlotsCanInsert

def hash (key : TimerKey) : ℕ :=
  let raw := key.raw
  let raw := raw ^^^ (raw >>> 33)
  let raw := raw * 0xff51afd7ed558ccd
  let raw := raw ^^^ (raw >>> 33)
  let raw := raw * 0xc4ceb9fe1a85ec53
  (raw ^^^ (raw >>> 33)).toNat

def liveKeySlots (slots : List Slot) : List KeySlot :=
  slots.zipIdx.filterMap fun p => if p.1.live then some ⟨p.1.key, p.2⟩ else none

def reserveForInsert (h : MinHeap) : Option MinHeap :=
  let h1 : MinHeap := { h with heapCap := reserve h.heap.length h.heapCap 1 }
  let h2 : MinHeap :=
    if h1.freeHead = noFreeSlot then
      { h1 with slotsCap := reserve h1.slots.length h1.slotsCap 1 }
    else h1
  if h2.keySlotsCanInsert then some h2
  else
    (requiredBuckets h2.heap.length).bind fun required =>
      (LinearProbe.insertAll KeySlot.key hash (List.replicate (max required 8) none)
        (liveKeySlots h2.slots)).map fun keySlots => { h2 with keySlots := keySlots }

def dueCount (h : MinHeap) (nowNs : UInt64) : ℕ :=
  h.heap.countP fun e => decide (e.deadlineNs ≤ nowNs)

def slotIndex (h : MinHeap) (key : TimerKey) : Option (Option ℕ) :=
  match LinearProbe.find KeySlot.key hash h.keySlots key with
  | none => none
  | some none => some none
  | some (some p) => h.keySlots[p]?.map fun s => s.map KeySlot.slotIndex

def slot (h : MinHeap) (key : TimerKey) : Option (Option Slot) :=
  (h.slotIndex key).map fun s => s.bind fun index => h.slots[index]?

def less (left right : HeapEntry) : Bool :=
  decide (left.deadlineNs < right.deadlineNs ∨
    left.deadlineNs = right.deadlineNs ∧ left.key.raw < right.key.raw)

def setHeapIndex (h : MinHeap) (key : TimerKey) (index : ℕ) : Option MinHeap :=
  match h.slotIndex key with
  | some (some s) => h.slots[s]?.map fun slot =>
      { h with slots := h.slots.set s { slot with heapIndex := index } }
  | _ => none

def swapEntries (h : MinHeap) (left right : ℕ) : Option MinHeap :=
  match h.heap[left]?, h.heap[right]? with
  | some l, some r =>
    let h1 : MinHeap := { h with heap := (h.heap.set left r).set right l }
    (h1.setHeapIndex r.key left).bind fun h2 => h2.setHeapIndex l.key right
  | _, _ => none

def siftUp : ℕ → MinHeap → ℕ → Option MinHeap
  | 0, h, index => if index = 0 then some h else none
  | fuel + 1, h, index =>
    if index = 0 then some h
    else
      match h.heap[index]?, h.heap[(index - 1) / 2]? with
      | some entry, some parent =>
        if less entry parent then
          (h.swapEntries index ((index - 1) / 2)).bind fun h1 => siftUp fuel h1 ((index - 1) / 2)
        else some h
      | _, _ => none

def leastChild (h : MinHeap) (index : ℕ) : ℕ :=
  match h.heap[index * 2 + 1]?, h.heap[index * 2 + 1 + 1]? with
  | some left, some right => if less right left then index * 2 + 1 + 1 else index * 2 + 1
  | _, _ => index * 2 + 1

def siftDown : ℕ → MinHeap → ℕ → Option MinHeap
  | 0, h, index => if h.heap.length ≤ index * 2 + 1 then some h else none
  | fuel + 1, h, index =>
    if h.heap.length ≤ index * 2 + 1 then some h
    else
      match h.heap[h.leastChild index]?, h.heap[index]? with
      | some child, some entry =>
        if less child entry then
          (h.swapEntries index (h.leastChild index)).bind fun h1 =>
            siftDown fuel h1 (h.leastChild index)
        else some h
      | _, _ => none

def repair (h : MinHeap) (index : ℕ) : Option MinHeap :=
  if index = 0 then siftDown h.heap.length h index
  else
    match h.heap[index]?, h.heap[(index - 1) / 2]? with
    | some entry, some parent =>
      if less entry parent then siftUp h.heap.length h index else siftDown h.heap.length h index
    | _, _ => none

/-- `Vec::swap_remove` closes the gap with the last entry, which is then put in its place. -/
def removeAt (h : MinHeap) (index : ℕ) : Option (HeapEntry × MinHeap) :=
  match h.heap[index]?, h.heap.getLast? with
  | some removed, some last =>
    let h1 : MinHeap := { h with heap := (h.heap.set index last).dropLast }
    if index < h1.heap.length then
      (h1.setHeapIndex last.key index).bind fun h2 => (h2.repair index).map fun h3 => (removed, h3)
    else some (removed, h1)
  | _, _ => none

def recycleSlot (h : MinHeap) (key : TimerKey) : Option MinHeap :=
  match LinearProbe.erase KeySlot.key hash h.keySlots key with
  | some (some keySlot, keySlots) =>
    (h.slots[keySlot.slotIndex]?).bind fun slot =>
      if slot.live then
        some { h with
          keySlots := keySlots
          slots :=
            h.slots.set keySlot.slotIndex { slot with live := false, heapIndex := h.freeHead }
          freeHead := keySlot.slotIndex }
      else none
  | _ => none

def takeSlot (h : MinHeap) (slot : Slot) : Option (ℕ × MinHeap) :=
  if h.freeHead = noFreeSlot then
    some (h.slots.length, { h with slots := h.slots ++ [slot] })
  else
    h.slots[h.freeHead]?.map fun free =>
      (h.freeHead, { h with
        freeHead := free.heapIndex
        slots := h.slots.set h.freeHead slot })

def insert (h : MinHeap) (key : TimerKey) (deadlineNs : UInt64) : Option MinHeap :=
  if h.hasInsertCapacity then
    let heapIndex := h.heap.length
    (h.takeSlot ⟨key, deadlineNs, 0, heapIndex, true⟩).bind fun r =>
      (LinearProbe.insert KeySlot.key hash r.2.keySlots ⟨key, r.1⟩).bind fun keySlots =>
        siftUp (heapIndex + 1)
          { r.2 with keySlots := keySlots, heap := r.2.heap ++ [⟨key, deadlineNs, 0⟩] } heapIndex
  else none

def remove (h : MinHeap) (key : TimerKey) : Option (Bool × MinHeap) :=
  (h.slot key).bind fun
    | none => some (false, h)
    | some slot =>
      if slot.live then
        (h.removeAt slot.heapIndex).bind fun r =>
          (r.2.recycleSlot key).map fun h1 => (true, h1)
      else some (false, h)

def rearm (h : MinHeap) (key : TimerKey) (deadlineNs : UInt64) : Option (Bool × MinHeap) :=
  (h.slotIndex key).bind fun
    | none => some (false, h)
    | some s =>
      match h.slots[s]? with
      | none => some (false, h)
      | some slot =>
        if slot.live then
          let generation := slot.generation + 1
          if slot.heapIndex < h.heap.length then
            let h1 : MinHeap := { h with
              slots :=
                h.slots.set s { slot with generation := generation, deadlineNs := deadlineNs }
              heap := h.heap.set slot.heapIndex ⟨key, deadlineNs, generation⟩ }
            (h1.repair slot.heapIndex).map fun h2 => (true, h2)
          else none
        else some (false, h)

structure Out where
  keys : List TimerKey
  cap : ℕ
deriving DecidableEq

def Out.push (out : Out) (key : TimerKey) : Option Out :=
  if out.keys.length < out.cap then some { out with keys := out.keys ++ [key] } else none

def drainDue (nowNs : UInt64) : ℕ → MinHeap → Out → Option (MinHeap × Out)
  | 0, h, out => if h.heap = [] then some (h, out) else none
  | fuel + 1, h, out =>
    match h.heap[0]? with
    | none => some (h, out)
    | some entry =>
      if nowNs < entry.deadlineNs then some (h, out)
      else
        (h.removeAt 0).bind fun r =>
          (r.2.slot r.1.key).bind fun
            | none => drainDue nowNs fuel r.2 out
            | some slot =>
              if slot.live ∧ slot.generation = r.1.generation then
                (r.2.recycleSlot r.1.key).bind fun h1 =>
                  (out.push r.1.key).bind fun out1 => drainDue nowNs fuel h1 out1
              else drainDue nowNs fuel r.2 out

def nextDeadlineNs (h : MinHeap) : Option UInt64 := h.heap[0]?.map HeapEntry.deadlineNs

end MinHeap

end TxKernel.Time
