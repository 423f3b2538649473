import Mathlib.Data.Set.Card
import Mathlib.Logic.Function.Basic
import TxKernel.Time.Growth

/-!
The timer engine, whose 64-bit counts panic when they are exhausted, and the registry it implements:
a map from keys to deadlines that also knows every key it has handed out and the greatest number of
timers it has held.
-/

namespace TxKernel.Time

structure TimerEngine where
  nextKey : Option UInt64
  mutation : ℕ
  queue : MinHeap
deriving DecidableEq

inductive Op where
  | insert (deadline : UInt64)
  | cancel (key : TimerKey)
  | dropGuard (key : TimerKey)
  | rearm (key : TimerKey) (deadline : UInt64)
  | drainDue (nowNs : UInt64) (out : MinHeap.Out)
  | nextDeadlineNs
deriving DecidableEq

inductive Output where
  | key (key : TimerKey)
  | flag (b : Bool)
  | done
  | keys (out : List TimerKey)
  | deadline (d : Option UInt64)
deriving DecidableEq

namespace TimerEngine

def new : TimerEngine := ⟨some 1, 0, .new⟩

def bumpMutation (e : TimerEngine) : Option TimerEngine :=
  if e.mutation + 1 < wordSize then some { e with mutation := e.mutation + 1 } else none

def checkedSucc (raw : UInt64) : Option UInt64 :=
  if raw.toNat + 1 < wordSize then some (raw + 1) else none

/-- The loop of `insert`: without room the queue is taken out, grown and put back, and the loop
starts again. -/
def insertLoop : ℕ → TimerEngine → UInt64 → Option (TimerKey × TimerEngine)
  | 0, _, _ => none
  | fuel + 1, e, deadline =>
    if e.queue.hasInsertCapacity then
      e.nextKey.bind fun raw =>
        (e.queue.insert ⟨raw⟩ deadline).bind fun queue =>
          (bumpMutation { e with nextKey := checkedSucc raw, queue := queue }).map fun e1 =>
            (⟨raw⟩, e1)
    else
      e.queue.reserveForInsert.bind fun queue =>
        insertLoop fuel { e with queue := queue } deadline

def insert (e : TimerEngine) (deadline : UInt64) : Option (TimerKey × TimerEngine) :=
  insertLoop 2 e deadline

def cancel (e : TimerEngine) (key : TimerKey) : Option (Bool × TimerEngine) :=
  (e.queue.remove key).bind fun r =>
    if r.1 then (bumpMutation { e with queue := r.2 }).map fun e1 => (true, e1)
    else some (false, { e with queue := r.2 })

def rearm (e : TimerEngine) (key : TimerKey) (deadline : UInt64) : Option (Bool × TimerEngine) :=
  (e.queue.rearm key deadline).bind fun r =>
    if r.1 then (bumpMutation { e with queue := r.2 }).map fun e1 => (true, e1)
    else some (false, { e with queue := r.2 })

def drainDue (e : TimerEngine) (nowNs : UInt64) (out : MinHeap.Out) :
    Option (MinHeap.Out × TimerEngine) :=
  let dueCount := e.queue.dueCount nowNs
  if dueCount = 0 then some (out, e)
  else
    let out1 : MinHeap.Out := { out with cap := reserve out.keys.length out.cap dueCount }
    if dueCount ≤ out1.cap - out1.keys.length then
      (MinHeap.drainDue nowNs e.queue.heap.length e.queue out1).bind fun r =>
        (bumpMutation { e with queue := r.1 }).map fun e1 => (r.2, e1)
    else none

def nextDeadlineNs (e : TimerEngine) : Option UInt64 := e.queue.nextDeadlineNs

def step (e : TimerEngine) : Op → Option (TimerEngine × Output)
  | .insert deadline => (e.insert deadline).map fun r => (r.2, .key r.1)
  | .cancel key => (e.cancel key).map fun r => (r.2, .flag r.1)
  | .dropGuard key => (e.cancel key).map fun r => (r.2, .done)
  | .rearm key deadline => (e.rearm key deadline).map fun r => (r.2, .flag r.1)
  | .drainDue nowNs out => (e.drainDue nowNs out).map fun r => (r.2, .keys r.1.keys)
  | .nextDeadlineNs => some (e, .deadline e.nextDeadlineNs)

def Holds (e : TimerEngine) (key : TimerKey) : Prop := ∃ x ∈ e.queue.heap, x.key = key

/-- A 64-bit count is exhausted: of the changes, of the keys, or of the buckets of the index. -/
def Exhausted (e : TimerEngine) : Op → Prop
  | .insert _ => wordSize ≤ (e.queue.heap.length + 1) * 2 ∨ e.nextKey = none ∨
      wordSize ≤ e.mutation + 1
  | .cancel key => e.Holds key ∧ wordSize ≤ e.mutation + 1
  | .dropGuard key => e.Holds key ∧ wordSize ≤ e.mutation + 1
  | .rearm key _ => e.Holds key ∧ wordSize ≤ e.mutation + 1
  | .drainDue nowNs _ => e.queue.dueCount nowNs ≠ 0 ∧ wordSize ≤ e.mutation + 1
  | .nextDeadlineNs => False

end TimerEngine

/-- What the engine is for: a map from live keys to deadlines. -/
structure Registry where
  live : TimerKey → Option UInt64
  issued : Set TimerKey
  peak : ℕ

namespace Registry

def empty : Registry := ⟨fun _ => none, ∅, 0⟩

noncomputable def size (m : Registry) : ℕ := {k | m.live k ≠ none}.ncard

/-- Two live keys in the order of deadlines, and of keys for one deadline. -/
def Before (m : Registry) (a b : TimerKey) : Prop :=
  ∃ d d', m.live a = some d ∧ m.live b = some d' ∧ (d < d' ∨ d = d' ∧ a.raw < b.raw)

def IsNext (m : Registry) : Option UInt64 → Prop
  | none => ∀ k, m.live k = none
  | some d => (∃ k, m.live k = some d) ∧ ∀ k d', m.live k = some d' → d ≤ d'

noncomputable def add (m : Registry) (key : TimerKey) (deadline : UInt64) : Registry where
  live := Function.update m.live key (some deadline)
  issued := insert key m.issued
  peak := max m.peak {k | Function.update m.live key (some deadline) k ≠ none}.ncard

/-- One operation of the registry, with its answer. -/
inductive Meets : Registry → Op → Output → Registry → Prop
  | insert (m : Registry) (deadline : UInt64) (key : TimerKey) (fresh : key ∉ m.issued) :
      Meets m (.insert deadline) (.key key) (m.add key deadline)
  | cancel (m : Registry) (key : TimerKey) :
      Meets m (.cancel key) (.flag (m.live key).isSome)
        { m with live := Function.update m.live key none }
  | dropGuard (m : Registry) (key : TimerKey) :
      Meets m (.dropGuard key) .done { m with live := Function.update m.live key none }
  | rearm (m : Registry) (key : TimerKey) (deadline : UInt64) :
      Meets m (.rearm key deadline) (.flag (m.live key).isSome)
        { m with live := Function.update m.live key ((m.live key).map fun _ => deadline) }
  | drainDue (m : Registry) (nowNs : UInt64) (out : MinHeap.Out) (due : List TimerKey)
      (sorted : due.Pairwise m.Before)
      (exact : ∀ k, k ∈ due ↔ ∃ d, m.live k = some d ∧ d ≤ nowNs) :
      Meets m (.drainDue nowNs out) (.keys (out.keys ++ due))
        { m with live := fun k => if k ∈ due then none else m.live k }
  | nextDeadlineNs (m : Registry) (d : Option UInt64) (next : m.IsNext d) :
      Meets m .nextDeadlineNs (.deadline d) m

/-- A sequence of operations with their answers. -/
inductive Behaves : Registry → List Op → List Output → Registry → Prop
  | nil (m : Registry) : Behaves m [] [] m
  | cons {m m1 m2 : Registry} {op : Op} {o : Output} {ops : List Op} {os : List Output}
      (first : Meets m op o m1) (rest : Behaves m1 ops os m2) :
      Behaves m (op :: ops) (o :: os) m2

end Registry

end TxKernel.Time
