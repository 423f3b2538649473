import TxKernel.Vm.RecipeTree

/-!
Nodes of the B+ recipe index and the reads on them. Pushing past a fixed capacity is an assertion
failure: a leaf carries its bound, and the functions that build nodes return `none` there. Reads
that would index past the end also give `none`.
-/

namespace TxKernel.Vm

def bplusLeafCap : ℕ := 16
def bplusInternalFanout : ℕ := 16
def bplusLeafMinFill : ℕ := bplusLeafCap / 2
def bplusInternalMinFanout : ℕ := bplusInternalFanout / 2

structure BPlusLeaf where
  entries : List VmEntry
  len : ℕ
  vmSize : ℕ
  len_eq : len = entries.length
  vmSize_eq : vmSize = vmSizeOf entries
  fits : entries.length ≤ bplusLeafCap

inductive BPlusNode
  | leaf (leaf : BPlusLeaf)
  | internal (separators : List ℕ) (children : List BPlusNode) (len vmSize height : ℕ)

def BPlusLeaf.fromOwnedEntries (entries : List VmEntry) : Option BPlusLeaf :=
  if h : entries.length ≤ bplusLeafCap then
    some ⟨entries, entries.length, vmSizeOf entries, rfl, rfl, h⟩
  else none

namespace BPlusNode

mutual

/-- The entries of a subtree in order (`collect_bplus_values_node`). -/
def values : BPlusNode → List VmEntry
  | .leaf l => l.entries
  | .internal _ cs _ _ _ => valuesAll cs

def valuesAll : List BPlusNode → List VmEntry
  | [] => []
  | c :: cs => values c ++ valuesAll cs

end

mutual

def firstEntry : BPlusNode → Option VmEntry
  | .leaf l => l.entries.head?
  | .internal _ cs _ _ _ => firstEntryOf cs

def firstEntryOf : List BPlusNode → Option VmEntry
  | [] => none
  | c :: _ => firstEntry c

end

mutual

def lastEntry : BPlusNode → Option VmEntry
  | .leaf l => l.entries.getLast?
  | .internal _ cs _ _ _ => lastEntryOf cs

def lastEntryOf : List BPlusNode → Option VmEntry
  | [] => none
  | [c] => lastEntry c
  | _ :: c :: cs => lastEntryOf (c :: cs)

end

def firstKey (n : BPlusNode) : Option ℕ := n.firstEntry.map fun e => e.range.start

def len : BPlusNode → ℕ
  | .leaf l => l.len
  | .internal _ _ len _ _ => len

def vmSize : BPlusNode → ℕ
  | .leaf l => l.vmSize
  | .internal _ _ _ vmSize _ => vmSize

def height : BPlusNode → ℕ
  | .leaf _ => 1
  | .internal _ _ _ _ height => height

def childCount : BPlusNode → ℕ
  | .leaf _ => 0
  | .internal _ cs _ _ _ => cs.length

def beforeRange (n : BPlusNode) (range : UserRange) : Bool :=
  n.lastEntry.any fun e => e.range.stop ≤ range.start

def afterRange (n : BPlusNode) (range : UserRange) : Bool :=
  n.firstEntry.any fun e => range.stop ≤ e.range.start

def mayOverlap (n : BPlusNode) (range : UserRange) : Bool :=
  !n.beforeRange range && !n.afterRange range

/-- The child to descend into: as many separators as are not above the address. -/
def childIndexFor (separators : List ℕ) (addr : ℕ) : ℕ :=
  (separators.takeWhile fun s => s ≤ addr).length

mutual

def findLeaf (addr : ℕ) : BPlusNode → Option (List VmEntry)
  | .leaf l => some l.entries
  | .internal seps cs _ _ _ => findLeafAt addr cs (childIndexFor seps addr)

def findLeafAt (addr : ℕ) : List BPlusNode → ℕ → Option (List VmEntry)
  | [], _ => none
  | c :: _, 0 => findLeaf addr c
  | _ :: cs, i + 1 => findLeafAt addr cs i

end

def lastStartingUpTo (entries : List VmEntry) (addr : ℕ) : Option VmEntry :=
  (entries.takeWhile fun e => e.range.start ≤ addr).getLast?

def lookupRef (n : BPlusNode) (addr : ℕ) : Option VmEntry :=
  (n.findLeaf addr).bind fun entries =>
    (lastStartingUpTo entries addr).filter fun e => e.range.containsAddr addr

def lastEntryBefore (cs : List BPlusNode) : ℕ → Option VmEntry
  | 0 => none
  | cursor + 1 =>
    match cs[cursor]?.bind lastEntry with
    | some e => some e
    | none => lastEntryBefore cs cursor

def firstEntryAmong : List BPlusNode → Option VmEntry
  | [] => none
  | c :: cs =>
    match c.firstEntry with
    | some e => some e
    | none => firstEntryAmong cs

mutual

def predecessor (key : ℕ) : BPlusNode → Option VmEntry
  | .leaf l => lastStartingUpTo l.entries key
  | .internal seps cs _ _ _ =>
    let idx := childIndexFor seps key
    match predecessorAt key cs idx with
    | some e => some e
    | none => lastEntryBefore cs idx

def predecessorAt (key : ℕ) : List BPlusNode → ℕ → Option VmEntry
  | [], _ => none
  | c :: _, 0 => predecessor key c
  | _ :: cs, i + 1 => predecessorAt key cs i

end

mutual

def successor (key : ℕ) : BPlusNode → Option VmEntry
  | .leaf l => l.entries.find? fun e => key ≤ e.range.start
  | .internal seps cs _ _ _ =>
    let idx := childIndexFor seps key
    match successorAt key cs idx with
    | some e => some e
    | none => firstEntryAmong (cs.drop (idx + 1))

def successorAt (key : ℕ) : List BPlusNode → ℕ → Option VmEntry
  | [], _ => none
  | c :: _, 0 => successor key c
  | _ :: cs, i + 1 => successorAt key cs i

end

/-- The scan of a leaf for a range: entries before it are skipped, the first one after it ends
the scan. -/
def visitLeafOverlapping {σ : Type} (range : UserRange) (visitor : σ → VmEntry → σ) :
    List VmEntry → σ → σ
  | [], st => st
  | e :: es, st =>
    if e.range.stop ≤ range.start then visitLeafOverlapping range visitor es st
    else if range.stop ≤ e.range.start then st
    else visitLeafOverlapping range visitor es (if e.range.overlaps range then visitor st e else st)

mutual

def visitOverlapping {σ : Type} (range : UserRange) (visitor : σ → VmEntry → σ)
    (st : σ) : BPlusNode → σ
  | .leaf l =>
    if (BPlusNode.leaf l).mayOverlap range then visitLeafOverlapping range visitor l.entries st
    else st
  | .internal seps cs len vmSize height =>
    if (BPlusNode.internal seps cs len vmSize height).mayOverlap range then
      visitOverlappingAll range visitor st cs
    else st

def visitOverlappingAll {σ : Type} (range : UserRange) (visitor : σ → VmEntry → σ)
    (st : σ) : List BPlusNode → σ
  | [] => st
  | c :: cs => visitOverlappingAll range visitor (visitOverlapping range visitor st c) cs

end

def collectOverlapping (range : UserRange) (n : BPlusNode) (out : List VmEntry) : List VmEntry :=
  visitOverlapping range (fun out e => out ++ [e]) out n

/-! ### Basic facts -/

@[simp] lemma values_leaf (l : BPlusLeaf) : values (.leaf l) = l.entries := by
  simp [values]

@[simp] lemma values_internal (seps : List ℕ) (cs : List BPlusNode) (len vmSize height : ℕ) :
    values (.internal seps cs len vmSize height) = valuesAll cs := by simp [values]

lemma valuesAll_eq (cs : List BPlusNode) : valuesAll cs = cs.flatMap values := by
  induction cs with
  | nil => simp [valuesAll]
  | cons c cs ih => simp [valuesAll, ih]

@[simp] lemma valuesAll_nil : valuesAll [] = [] := by simp [valuesAll]

@[simp] lemma valuesAll_cons (c : BPlusNode) (cs : List BPlusNode) :
    valuesAll (c :: cs) = values c ++ valuesAll cs := by simp [valuesAll]

@[simp] lemma valuesAll_append (cs ds : List BPlusNode) :
    valuesAll (cs ++ ds) = valuesAll cs ++ valuesAll ds := by simp [valuesAll_eq]

end BPlusNode

end TxKernel.Vm
