import TxKernel.Vm.BPlus.Node

/-!
Building B+ nodes: balanced chunks, repair of underfull siblings, and regrowth of the root. Where a
repair loop meets a child of the other kind it returns that child alone: the assertion in front is
checked in debug builds only.
-/

namespace TxKernel.Vm.BPlusNode

def divCeil (a b : ℕ) : ℕ := (a + b - 1) / b

/-- Lower the number of chunks until each is filled to the minimum. -/
def lowerChunkCount (len minFill : ℕ) : ℕ → ℕ
  | 0 => 0
  | 1 => 1
  | c + 2 => if len / (c + 2) < minFill then lowerChunkCount len minFill (c + 1) else c + 2

def chunkRangesFrom (len : ℕ) : ℕ → ℕ → List (ℕ × ℕ)
  | 0, _ => []
  | k + 1, start =>
    let chunkLen := divCeil (len - start) (k + 1)
    (start, start + chunkLen) :: chunkRangesFrom len k (start + chunkLen)

def balancedChunkRanges (len capacity minFill : ℕ) : List (ℕ × ℕ) :=
  if len = 0 then []
  else chunkRangesFrom len (lowerChunkCount len minFill (divCeil len capacity)) 0

/-- One leaf a range, taking the entries off the front; empty ranges are skipped. -/
def leafChunks : List (ℕ × ℕ) → List VmEntry → Option (List BPlusNode)
  | [], _ => some []
  | (start, stop) :: ranges, entries =>
    let chunkLen := stop - start
    if chunkLen = 0 then leafChunks ranges entries
    else do
      let leaf ← BPlusLeaf.fromOwnedEntries (entries.take chunkLen)
      let rest ← leafChunks ranges (entries.drop chunkLen)
      some (.leaf leaf :: rest)

def leafNodesFromEntries (entries : List VmEntry) : Option (List BPlusNode) :=
  leafChunks (balancedChunkRanges entries.length bplusLeafCap bplusLeafMinFill) entries

def separatorsFor (children : List BPlusNode) : List ℕ := children.tail.filterMap firstKey

def fromChildSlice (children : List BPlusNode) (height : ℕ) : Option BPlusNode :=
  if children.length ≤ bplusInternalFanout then
    some (.internal (separatorsFor children) children (children.map len).sum
      (children.map vmSize).sum height)
  else none

structure Pushed where
  separators : List ℕ
  children : List BPlusNode
  len : ℕ
  vmSize : ℕ

/-- `push_bplus_internal_child`: the separator goes in from the second child on. -/
def pushInternalChild (p : Pushed) (child : BPlusNode) : Pushed :=
  ⟨if 0 < p.children.length then p.separators ++ child.firstKey.toList else p.separators,
    p.children ++ [child], p.len + child.len, p.vmSize + child.vmSize⟩

def fromReplacedChildRange (existing : List BPlusNode) (height first last : ℕ)
    (replacements : List BPlusNode) : Option BPlusNode :=
  let removedCount := last - first + 1
  let childCount := existing.length - removedCount + replacements.length
  if childCount ≤ bplusInternalFanout then
    let p := (existing.take first).foldl pushInternalChild ⟨[], [], 0, 0⟩
    let p := replacements.foldl pushInternalChild p
    let p := (existing.drop (last + 1)).foldl pushInternalChild p
    some (.internal p.separators p.children p.len p.vmSize height)
  else none

def chunkChildren (children : List BPlusNode) (height : ℕ) : List (ℕ × ℕ) → Option (List BPlusNode)
  | [] => some []
  | (start, stop) :: ranges =>
    let chunk := (children.take stop).drop start
    if chunk.isEmpty then chunkChildren children height ranges
    else do
      let node ← fromChildSlice chunk height
      let rest ← chunkChildren children height ranges
      some (node :: rest)

/-- What a repair pass works on: how full a child is, and the items it is rebuilt from, which
only a child of the expected kind has. -/
structure Repair (ι : Type) where
  count : BPlusNode → ℕ
  items : BPlusNode → Option (List ι)
  minFill : ℕ
  rebuild : List ι → Option (List BPlusNode)

namespace Repair

variable {ι : Type} (R : Repair ι)

def underfull (child : BPlusNode) : Bool :=
  (R.items child).isSome && decide (R.count child < R.minFill)

/-- The items of a group in order, or the first child of the wrong kind. -/
def gather : List BPlusNode → Except BPlusNode (List ι)
  | [] => .ok []
  | c :: cs =>
    match R.items c with
    | none => .error c
    | some xs => (gather cs).map fun ys => xs ++ ys

/-- An underfull child is rebuilt with the last repaired sibling, and the next one if these two are
still too small. -/
def group (rebalanced : List BPlusNode) (c : BPlusNode) (rest : List BPlusNode) :
    List BPlusNode × List BPlusNode × List BPlusNode :=
  let g := rebalanced.getLast?.toList ++ [c]
  if (g.map R.count).sum < R.minFill then
    (rebalanced.dropLast, g ++ rest.head?.toList, rest.tail)
  else (rebalanced.dropLast, g, rest)

lemma length_group_rest (rebalanced : List BPlusNode) (c : BPlusNode) (rest : List BPlusNode) :
    (R.group rebalanced c rest).2.2.length ≤ rest.length := by
  unfold group
  simp only
  split_ifs <;> simp

def loop (rebalanced : List BPlusNode) : List BPlusNode → Option (List BPlusNode)
  | [] => some rebalanced
  | c :: rest =>
    if (R.items c).isNone then some [c]
    else if R.minFill ≤ R.count c then loop (rebalanced ++ [c]) rest
    else
      let g := R.group rebalanced c rest
      match R.gather g.2.1 with
      | .error child => some [child]
      | .ok items =>
        match R.rebuild items with
        | none => none
        | some nodes => loop (g.1 ++ nodes) g.2.2
termination_by children => children.length
decreasing_by
  · simp
  have := R.length_group_rest rebalanced c rest
  simp only [List.length_cons]
  omega

def rebalance (children : List BPlusNode) : Option (List BPlusNode) :=
  if children.length ≤ 1 then some children
  else if children.any R.underfull then R.loop [] children
  else some children

end Repair

def leafItems : BPlusNode → Option (List VmEntry)
  | .leaf l => some l.entries
  | .internal .. => none

def internalItems : BPlusNode → Option (List BPlusNode)
  | .leaf _ => none
  | .internal _ cs _ _ _ => some cs

def leafRepair : Repair VmEntry := ⟨len, leafItems, bplusLeafMinFill, leafNodesFromEntries⟩

def internalRepair (rebuild : List BPlusNode → Option (List BPlusNode)) : Repair BPlusNode :=
  ⟨childCount, internalItems, bplusInternalMinFanout, rebuild⟩

def rebalanceLeafChildren (children : List BPlusNode) : Option (List BPlusNode) :=
  leafRepair.rebalance children

def rebalanceInternalChildren (rebuild : List BPlusNode → Option (List BPlusNode))
    (children : List BPlusNode) : Option (List BPlusNode) :=
  (internalRepair rebuild).rebalance children

def internalChunks (children : List BPlusNode) (height : ℕ) : Option (List BPlusNode) :=
  chunkChildren children height
    (balancedChunkRanges children.length bplusInternalFanout bplusInternalMinFanout)

/-- Internal nodes of the given height over repaired children. Below height two there is nothing
to rebuild grandchildren into. -/
def internalNodesFromChildren : ℕ → List BPlusNode → Option (List BPlusNode)
  | 0, children =>
    (rebalanceInternalChildren (fun _ => none) children).bind fun cs => internalChunks cs 0
  | h + 1, children =>
    (if h + 1 = 2 then rebalanceLeafChildren children
      else rebalanceInternalChildren (internalNodesFromChildren h) children).bind fun cs =>
        internalChunks cs (h + 1)

def replacementChildrenNeedRepair (childNodes : List BPlusNode) (parentHeight : ℕ) : Bool :=
  childNodes.isEmpty || childNodes.any fun
    | .leaf l => parentHeight = 2 ∧ l.len < bplusLeafMinFill
    | .internal _ cs _ _ _ => 2 < parentHeight ∧ cs.length < bplusInternalMinFanout

/-- The nodes that stand for an internal node after children `first` to `last` were replaced. -/
def internalNodesReplacingChildRange (children : List BPlusNode) (height first last : ℕ)
    (childNodes : List BPlusNode) : Option (List BPlusNode) :=
  let removedCount := last - first + 1
  let childCount := children.length - removedCount + childNodes.length
  if 0 < childCount ∧ childCount ≤ bplusInternalFanout ∧
      !replacementChildrenNeedRepair childNodes height then
    (fromReplacedChildRange children height first last childNodes).map fun n => [n]
  else
    internalNodesFromChildren height
      (children.take first ++ childNodes ++ children.drop (last + 1))

def collapseRoot : BPlusNode → BPlusNode
  | .internal _ [c] _ _ _ => collapseRoot c
  | n => n
termination_by n => sizeOf n

/-- Build level over level until one node is left; `fuel` bounds the number of levels. -/
def growRoot (parents : ℕ → List BPlusNode → Option (List BPlusNode)) :
    ℕ → List BPlusNode → ℕ → Option BPlusNode
  | _, [], _ => none
  | _, [n], _ => some (collapseRoot n)
  | 0, _ :: _ :: _, _ => none
  | fuel + 1, n :: m :: level, height =>
    (parents (height + 1) (n :: m :: level)).bind fun next =>
      growRoot parents fuel next (height + 1)

def buildRootFromLevel (level : List BPlusNode) (height : ℕ) : Option (Option BPlusNode) :=
  if level.isEmpty then some none
  else (growRoot internalNodesFromChildren level.length level height).map some

/-- `build_bplus_from_entries`: fresh leaves are balanced, so their parents need no repair. -/
def buildFromEntries (entries : List VmEntry) : Option (Option BPlusNode) :=
  (leafNodesFromEntries entries).bind fun leaves =>
    if leaves.isEmpty then some none
    else (growRoot (fun height level => internalChunks level height) leaves.length leaves 1).map
      some

end TxKernel.Vm.BPlusNode
