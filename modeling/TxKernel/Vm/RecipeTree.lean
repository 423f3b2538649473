import TxKernel.Vm.Types
import TxKernel.Library.Treap

/-!
The recipe tree: an immutable index of mapping entries by start address, and its default treap
backend. Values stand for the shared nodes, which are never written after they are made. Counters of
visited and allocated nodes are left out.
-/

namespace TxKernel.Vm

open TxKernel.Spans TxKernel.Treap

structure RemovedRecipeSummary where
  count : ℕ
  vmSize : ℕ
  deriving Repr, DecidableEq

namespace RemovedRecipeSummary

def default : RemovedRecipeSummary := ⟨0, 0⟩

def observe (s : RemovedRecipeSummary) (e : VmEntry) : RemovedRecipeSummary :=
  ⟨s.count + 1, s.vmSize + e.range.len⟩

def fromEntries (es : List VmEntry) : RemovedRecipeSummary := es.foldl observe default

end RemovedRecipeSummary

def vmSizeOf (es : List VmEntry) : ℕ := (es.map fun e => e.range.len).sum

structure RecipeTreeWith (B : Type) where
  inner : B
  len : ℕ
  vmSize : ℕ
  deriving Repr, DecidableEq

namespace RecipeTreeWith

variable {B : Type}

def inserted (t : RecipeTreeWith B) (inner : B) (e : VmEntry) : RecipeTreeWith B :=
  ⟨inner, t.len + 1, t.vmSize + e.range.len⟩

def removedOne (t : RecipeTreeWith B) (inner : B) : Option VmEntry → RecipeTreeWith B
  | some e => ⟨inner, t.len - 1, t.vmSize - e.range.len⟩
  | none => ⟨inner, t.len, t.vmSize⟩

def replaced (t : RecipeTreeWith B) (inner : B) (removed : RemovedRecipeSummary)
    (rs : List VmEntry) : RecipeTreeWith B :=
  ⟨inner, t.len - removed.count + rs.length, t.vmSize - removed.vmSize + vmSizeOf rs⟩

end RecipeTreeWith

def recipeCache : Cache VmEntry (ℕ × ℕ) where
  empty := (0, 0)
  join e l r := (1 + l.1 + r.1, e.range.len + l.2 + r.2)

abbrev RecipeNode := Tree VmEntry (ℕ × ℕ)

def splitmix64 (key : UInt64) : UInt64 :=
  let x := key + 0x9e3779b97f4a7c15
  let x := (x ^^^ (x >>> 30)) * 0xbf58476d1ce4e5b9
  let x := (x ^^^ (x >>> 27)) * 0x94d049bb133111eb
  x ^^^ (x >>> 31)

def recipePriority (key : ℕ) : UInt64 := splitmix64 (UInt64.ofNat key)

structure TreapRecipeIndex where
  root : RecipeNode
  deriving DecidableEq

namespace TreapRecipeIndex

def new : TreapRecipeIndex := ⟨.nil⟩

def collectValues : RecipeNode → List VmEntry → List VmEntry
  | .nil, out => out
  | .node _ _ e l r _, out => collectValues r (collectValues l out ++ [e])

def summarizeTreapValues : RecipeNode → RemovedRecipeSummary → RemovedRecipeSummary
  | .nil, out => out
  | .node _ _ e l r _, out => summarizeTreapValues r ((summarizeTreapValues l out).observe e)

def startsIn (range : UserRange) (k : ℕ) (e : VmEntry) : Bool :=
  decide (range.start ≤ k ∧ k < range.stop ∧ e.range.overlaps range)

def reachesInto (range : UserRange) (e : VmEntry) : Bool :=
  decide (e.range.start < range.start ∧ e.range.overlaps range)

def visitStartingIn {σ : Type} (range : UserRange) (visitor : σ → VmEntry → σ) :
    RecipeNode → σ → σ
  | .nil, st => st
  | .node k _ e l r _, st =>
    let st := if range.start ≤ k then visitStartingIn range visitor l st else st
    let st := if startsIn range k e then visitor st e else st
    if k < range.stop then visitStartingIn range visitor r st else st

def collectStartingIn (range : UserRange) (root : RecipeNode) (out : List VmEntry) :
    List VmEntry :=
  visitStartingIn range (fun out e => out ++ [e]) root out

def valuesVec (t : TreapRecipeIndex) : List VmEntry := collectValues t.root []

def lookupRef (t : TreapRecipeIndex) (addr : ℕ) : Option VmEntry :=
  (t.root.floor addr none).filter fun e => e.range.containsAddr addr

def predecessorRef (t : TreapRecipeIndex) (key : ℕ) : Option VmEntry := t.root.floor key none

def successorRef (t : TreapRecipeIndex) (key : ℕ) : Option VmEntry := t.root.ceiling key none

def forEachOverlapping {σ : Type} (t : TreapRecipeIndex) (range : UserRange)
    (visitor : σ → VmEntry → σ) (st : σ) : σ :=
  let st := match t.predecessorRef range.start with
    | some e => if reachesInto range e then visitor st e else st
    | none => st
  visitStartingIn range visitor t.root st

def overlapping (t : TreapRecipeIndex) (range : UserRange) : List VmEntry :=
  let out := match t.predecessorRef range.start with
    | some e => if reachesInto range e then [e] else []
    | none => []
  collectStartingIn range t.root out

def insertEntry (t : TreapRecipeIndex) (e : VmEntry) : TreapRecipeIndex :=
  ⟨t.root.insert recipeCache e.range.start (recipePriority e.range.start) e⟩

def removeExact (t : TreapRecipeIndex) (key : ℕ) : TreapRecipeIndex × Option VmEntry :=
  let r := t.root.remove recipeCache key
  (⟨r.1⟩, r.2)

def joinReplaced (left : TreapRecipeIndex) (rs : List VmEntry) (afterEnd : RecipeNode) :
    TreapRecipeIndex :=
  let replacementRoot := rs.foldl insertEntry new
  let joined := Tree.merge recipeCache left.root replacementRoot.root
  ⟨Tree.merge recipeCache joined afterEnd⟩

def replaceRange (t : TreapRecipeIndex) (range : UserRange) (rs : List VmEntry) :
    TreapRecipeIndex × List VmEntry :=
  let s := t.root.splitBefore recipeCache range.start
  let m := s.2.splitBefore recipeCache range.stop
  let left : TreapRecipeIndex := ⟨s.1⟩
  match left.predecessorRef range.start with
  | some boundary =>
    if boundary.range.overlaps range then
      let r := left.removeExact boundary.range.start
      (joinReplaced r.1 rs m.2, collectValues m.1 r.2.toList)
    else (joinReplaced left rs m.2, collectValues m.1 [])
  | none => (joinReplaced left rs m.2, collectValues m.1 [])

def replaceRangeSummary (t : TreapRecipeIndex) (range : UserRange) (rs : List VmEntry) :
    TreapRecipeIndex × RemovedRecipeSummary :=
  let s := t.root.splitBefore recipeCache range.start
  let m := s.2.splitBefore recipeCache range.stop
  let left : TreapRecipeIndex := ⟨s.1⟩
  match left.predecessorRef range.start with
  | some boundary =>
    if boundary.range.overlaps range then
      let r := left.removeExact boundary.range.start
      (joinReplaced r.1 rs m.2,
        summarizeTreapValues m.1 (RemovedRecipeSummary.default.observe boundary))
    else (joinReplaced left rs m.2, summarizeTreapValues m.1 .default)
  | none => (joinReplaced left rs m.2, summarizeTreapValues m.1 .default)

end TreapRecipeIndex

/-- The tree the kernel uses by default. -/
abbrev RecipeTree := RecipeTreeWith TreapRecipeIndex

namespace RecipeTree

def new : RecipeTree := ⟨.new, 0, 0⟩

def valuesVec (t : RecipeTree) : List VmEntry := t.inner.valuesVec

def lookup (t : RecipeTree) (addr : ℕ) : Option VmEntry := t.inner.lookupRef addr

def predecessorRef (t : RecipeTree) (key : ℕ) : Option VmEntry := t.inner.predecessorRef key

def successorRef (t : RecipeTree) (key : ℕ) : Option VmEntry := t.inner.successorRef key

def overlapping (t : RecipeTree) (range : UserRange) : List VmEntry := t.inner.overlapping range

def forEachOverlapping {σ : Type} (t : RecipeTree) (range : UserRange)
    (visitor : σ → VmEntry → σ) (st : σ) : σ := t.inner.forEachOverlapping range visitor st

def insertEntry (t : RecipeTree) (e : VmEntry) : RecipeTree :=
  t.inserted (t.inner.insertEntry e) e

def removeExact (t : RecipeTree) (key : ℕ) : RecipeTree × Option VmEntry :=
  let r := t.inner.removeExact key
  (t.removedOne r.1 r.2, r.2)

def replaceExact (t : RecipeTree) (e : VmEntry) : Except VmMapError RecipeTree :=
  let r := t.removeExact e.range.start
  match r.2 with
  | none => .error .missingMapping
  | some removed =>
    if removed.range ≠ e.range then .error .invalidRange else .ok (insertEntry r.1 e)

def replaceRange (t : RecipeTree) (range : UserRange) (rs : List VmEntry) :
    RecipeTree × List VmEntry :=
  let r := t.inner.replaceRange range rs
  (t.replaced r.1 ⟨r.2.length, vmSizeOf r.2⟩ rs, r.2)

def replaceRangeSummary (t : RecipeTree) (range : UserRange) (rs : List VmEntry) :
    RecipeTree × RemovedRecipeSummary :=
  let r := t.inner.replaceRangeSummary range rs
  (t.replaced r.1 r.2 rs, r.2)

end RecipeTree

end TxKernel.Vm
