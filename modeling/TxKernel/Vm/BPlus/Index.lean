import TxKernel.Vm.BPlus.Build
import TxKernel.Vm.EntrySplit

/-!
The B+ recipe index: the edits of one leaf, the replacement of a range, and the tree around it. An
edit says whether the node is unchanged, which the source tells by pointer equality. `none` is a
failed assertion.
-/

namespace TxKernel.Vm

inductive Edited
  | same
  | nodes (ns : List BPlusNode)

def Edited.toNodes (n : BPlusNode) : Edited → List BPlusNode
  | .same => [n]
  | .nodes ns => ns

def Edited.isSame : Edited → Bool
  | .same => true
  | .nodes _ => false

namespace BPlusNode

/-! ### Edits of one leaf -/

section

variable {ρ : Type} (key : ℕ) (edit : BPlusLeaf → Option (Edited × ρ))

mutual

/-- Descend to the leaf for `key`, edit it, and rebuild the path. -/
def editLeaf : BPlusNode → Option (Edited × ρ)
  | .leaf l => edit l
  | .internal seps cs _ _ height =>
    match editLeafAt cs (childIndexFor seps key) with
    | none => none
    | some (.same, r) => some (.same, r)
    | some (.nodes childNodes, r) =>
      (internalNodesReplacingChildRange cs height (childIndexFor seps key)
        (childIndexFor seps key) childNodes).map fun ns => (.nodes ns, r)

def editLeafAt : List BPlusNode → ℕ → Option (Edited × ρ)
  | [], _ => none
  | c :: _, 0 => editLeaf c
  | _ :: cs, i + 1 => editLeafAt cs i

end

end

def leafIndexForStart (l : BPlusLeaf) (key : ℕ) : ℕ :=
  (l.entries.takeWhile fun e => e.range.start < key).length

def insertInLeaf (e : VmEntry) (l : BPlusLeaf) : Option (Edited × Unit) :=
  (leafNodesFromEntries (l.entries.insertIdx (leafIndexForStart l e.range.start) e)).map
    fun ns => (.nodes ns, ())

def insertNode (e : VmEntry) (n : BPlusNode) : Option (List BPlusNode) :=
  (editLeaf e.range.start (insertInLeaf e) n).map fun r => r.1.toNodes n

def removeFromLeaf (key : ℕ) (l : BPlusLeaf) : Option (Edited × Option VmEntry) :=
  let pos := leafIndexForStart l key
  match l.entries[pos]?.filter fun e => e.range.start = key with
  | none => some (.nodes [.leaf l], none)
  | some e => (leafNodesFromEntries (l.entries.eraseIdx pos)).map fun ns => (.nodes ns, some e)

def removeNode (key : ℕ) (n : BPlusNode) : Option (List BPlusNode × Option VmEntry) :=
  (editLeaf key (removeFromLeaf key) n).map fun r => (r.1.toNodes n, r.2)

/-- The leaf scan of `replace_one_entry_bplus_node`: the first entry that starts at `existing`
gives way to the rewrite. -/
def replaceOneScan (existing : ℕ) : List VmEntry → Option VmEntryRewrite → RemovedRecipeSummary →
    List VmEntry → List VmEntry × RemovedRecipeSummary
  | [], _, removed, out => (out, removed)
  | e :: es, rewrite, removed, out =>
    if e.range.start = existing then
      replaceOneScan existing es none (removed.observe e)
        (out ++ (rewrite.map VmEntryRewrite.intoEntries).getD [])
    else replaceOneScan existing es rewrite removed (out ++ [e])

def replaceOneInLeaf (existing : ℕ) (rewrite : VmEntryRewrite) (l : BPlusLeaf) :
    Option (Edited × RemovedRecipeSummary) :=
  let r := replaceOneScan existing l.entries (some rewrite) .default []
  if r.2.count = 0 then some (.same, r.2)
  else (leafNodesFromEntries r.1).map fun ns => (.nodes ns, r.2)

def replaceOneEntryNode (existing : ℕ) (rewrite : VmEntryRewrite) (n : BPlusNode) :
    Option (Edited × RemovedRecipeSummary) :=
  editLeaf existing (replaceOneInLeaf existing rewrite) n

/-- The leaf scan of `replace_one_entry_bplus_node_with_protect`: entries that start at `existing`
are cut. -/
def protectScan (zone : ℕ → Bool) (existing : ℕ) (w : VmEntryProtectRewrite) :
    PrivateHeap → List VmEntry → RemovedRecipeSummary → List VmEntry →
      Except VmMapError (PrivateHeap × List VmEntry × RemovedRecipeSummary)
  | heap, [], removed, out => .ok (heap, out, removed)
  | heap, e :: es, removed, out =>
    if e.range.start = existing then
      match w.intoRewriteFor zone heap e with
      | .error err => .error (recipeTreeVmEntryError err)
      | .ok (heap, rewrite) =>
        protectScan zone existing w heap es (removed.observe e) (out ++ rewrite.intoEntries)
    else protectScan zone existing w heap es removed (out ++ [e])

def protectOneInLeaf (zone : ℕ → Bool) (heap : PrivateHeap) (existing : ℕ)
    (w : VmEntryProtectRewrite) (l : BPlusLeaf) :
    Option (Edited × Except VmMapError (PrivateHeap × RemovedRecipeSummary)) :=
  match protectScan zone existing w heap l.entries .default [] with
  | .error err => some (.same, .error err)
  | .ok (heap, entries, removed) =>
    if removed.count = 0 then some (.same, .ok (heap, removed))
    else (leafNodesFromEntries entries).map fun ns => (.nodes ns, .ok (heap, removed))

def protectOneEntryNode (zone : ℕ → Bool) (heap : PrivateHeap) (existing : ℕ)
    (w : VmEntryProtectRewrite) (n : BPlusNode) :
    Option (Edited × Except VmMapError (PrivateHeap × RemovedRecipeSummary)) :=
  editLeaf existing (protectOneInLeaf zone heap existing w) n

/-! ### Replacing a range -/

structure ReplacementCursor where
  entries : List VmEntry
  inserted : Bool

/-- Collects the removed entries, when asked to, and their summary. -/
structure RemovedRecipeRecorder where
  entries : Option (List VmEntry)
  summary : RemovedRecipeSummary

namespace RemovedRecipeRecorder

def collecting : RemovedRecipeRecorder := ⟨some [], .default⟩

def summaryOnly : RemovedRecipeRecorder := ⟨none, .default⟩

def observe (r : RemovedRecipeRecorder) (e : VmEntry) : RemovedRecipeRecorder :=
  ⟨r.entries.map fun es => es ++ [e], r.summary.observe e⟩

end RemovedRecipeRecorder

structure LeafScan where
  cursor : ReplacementCursor
  removed : RemovedRecipeRecorder
  out : List VmEntry
  changed : Bool

/-- The replacements go in before the first entry that starts after the first of them; overlapping
entries go out. -/
def LeafScan.step (range : UserRange) (s : LeafScan) (e : VmEntry) : LeafScan :=
  let s := if !s.cursor.inserted &&
      (s.cursor.entries.head?.any fun r => r.range.start < e.range.start)
    then { s with cursor := ⟨[], true⟩, out := s.out ++ s.cursor.entries } else s
  if e.range.overlaps range then { s with changed := true, removed := s.removed.observe e }
  else { s with out := s.out ++ [e] }

def skipBefore (range : UserRange) : List BPlusNode → ℕ → ℕ
  | [], first => first
  | c :: cs, first => if c.beforeRange range then skipBefore range cs (first + 1) else first

def extendLast (range : UserRange) : List BPlusNode → ℕ → ℕ
  | [], last => last
  | c :: cs, last => if c.afterRange range then last else extendLast range cs (last + 1)

def retreatLast (range : UserRange) (cs : List BPlusNode) (first : ℕ) : ℕ → ℕ
  | 0 => 0
  | last + 1 =>
    if first < last + 1 ∧ (cs[last + 1]?.any fun c => c.afterRange range) then
      retreatLast range cs first last
    else last + 1

def childRangeForReplace (seps : List ℕ) (cs : List BPlusNode) (range : UserRange) :
    Option (ℕ × ℕ) :=
  let childCount := cs.length
  if childCount = 0 then none
  else
    let first := childIndexFor seps range.start - 1
    let first := skipBefore range (cs.drop first) first
    if first = childCount ∨ (cs[first]?.any fun c => c.afterRange range) then
      some (min first (childCount - 1), min first (childCount - 1))
    else
      let last := min (childIndexFor seps range.stop) (childCount - 1)
      let last := extendLast range (cs.drop (last + 1)) last
      some (first, retreatLast range cs first last)

/-- Where a range replacement stands after a subtree. -/
structure Replaced where
  edited : Edited
  cursor : ReplacementCursor
  removed : RemovedRecipeRecorder

/-- What the loop over children has collected: the nodes, and whether each child came back as
it was. -/
structure ReplacedChildren where
  childNodes : List BPlusNode
  unchanged : Bool
  cursor : ReplacementCursor
  removed : RemovedRecipeRecorder

def replaceRangeLeaf (range : UserRange) (l : BPlusLeaf) (cur : ReplacementCursor)
    (rem : RemovedRecipeRecorder) : Option Replaced :=
  let s := l.entries.foldl (LeafScan.step range) ⟨cur, rem, [], false⟩
  if !s.cursor.inserted && s.cursor.entries.isEmpty && !s.changed then
    some ⟨.same, { s.cursor with inserted := true }, s.removed⟩
  else
    let out := if s.cursor.inserted then s.out else s.out ++ s.cursor.entries
    let cur := if s.cursor.inserted then s.cursor else ⟨[], true⟩
    (leafNodesFromEntries out).map fun ns => ⟨.nodes ns, cur, s.removed⟩

/-- The case of a node that lies after the range: pending replacements go in front of it. -/
def replaceRangeAfter (n : BPlusNode) (cur : ReplacementCursor) (rem : RemovedRecipeRecorder) :
    Option Replaced :=
  if cur.inserted then some ⟨.same, cur, rem⟩
  else if cur.entries.isEmpty then some ⟨.same, { cur with inserted := true }, rem⟩
  else (leafNodesFromEntries cur.entries).map fun ns => ⟨.nodes (ns ++ [n]), ⟨[], true⟩, rem⟩

mutual

def replaceRangeNode (range : UserRange) :
    BPlusNode → ReplacementCursor → RemovedRecipeRecorder → Option Replaced
  | .leaf l, cur, rem =>
    if (BPlusNode.leaf l).beforeRange range then some ⟨.same, cur, rem⟩
    else if (BPlusNode.leaf l).afterRange range then replaceRangeAfter (.leaf l) cur rem
    else replaceRangeLeaf range l cur rem
  | .internal seps cs len vmSize height, cur, rem =>
    if (BPlusNode.internal seps cs len vmSize height).beforeRange range then some ⟨.same, cur, rem⟩
    else if (BPlusNode.internal seps cs len vmSize height).afterRange range then
      replaceRangeAfter (.internal seps cs len vmSize height) cur rem
    else
      match childRangeForReplace seps cs range with
      | none => some ⟨.same, cur, rem⟩
      | some (first, last) =>
        match replaceRangeChildren range cs first (last - first + 1) cur rem with
        | none => none
        | some r =>
          if r.unchanged then some ⟨.same, r.cursor, r.removed⟩
          else (internalNodesReplacingChildRange cs height first last r.childNodes).map fun ns =>
            ⟨.nodes ns, r.cursor, r.removed⟩

/-- The loop over `count` children after the first `skip`. -/
def replaceRangeChildren (range : UserRange) :
    List BPlusNode → ℕ → ℕ → ReplacementCursor → RemovedRecipeRecorder → Option ReplacedChildren
  | _, _, 0, cur, rem => some ⟨[], true, cur, rem⟩
  | [], _, _ + 1, _, _ => none
  | _ :: cs, skip + 1, count + 1, cur, rem => replaceRangeChildren range cs skip (count + 1) cur rem
  | c :: cs, 0, count + 1, cur, rem =>
    match replaceRangeNode range c cur rem with
    | none => none
    | some r =>
      (replaceRangeChildren range cs 0 count r.cursor r.removed).map fun rest =>
        ⟨r.edited.toNodes c ++ rest.childNodes, r.edited.isSame && rest.unchanged, rest.cursor,
          rest.removed⟩

end

end BPlusNode

/-! ### The index -/

structure BPlusRecipeIndex where
  root : Option BPlusNode

namespace BPlusRecipeIndex

open BPlusNode

def new : BPlusRecipeIndex := ⟨none⟩

def valuesVec (t : BPlusRecipeIndex) : List VmEntry :=
  match t.root with
  | none => []
  | some root => root.values

def lookupRef (t : BPlusRecipeIndex) (addr : ℕ) : Option VmEntry :=
  t.root.bind fun root => root.lookupRef addr

def predecessorRef (t : BPlusRecipeIndex) (key : ℕ) : Option VmEntry :=
  t.root.bind fun root => root.predecessor key

def successorRef (t : BPlusRecipeIndex) (key : ℕ) : Option VmEntry :=
  t.root.bind fun root => root.successor key

def forEachOverlapping {σ : Type} (t : BPlusRecipeIndex) (range : UserRange)
    (visitor : σ → VmEntry → σ) (st : σ) : σ :=
  match t.root with
  | none => st
  | some root => root.visitOverlapping range visitor st

def overlapping (t : BPlusRecipeIndex) (range : UserRange) : List VmEntry :=
  match t.root with
  | none => []
  | some root => root.collectOverlapping range []

def insertEntry (t : BPlusRecipeIndex) (e : VmEntry) : Option BPlusRecipeIndex :=
  match t.root with
  | some root => do
    let nodes ← root.insertNode e
    let root ← buildRootFromLevel nodes root.height
    some ⟨root⟩
  | none => (leafNodesFromEntries [e]).map fun leaves => ⟨leaves.getLast?⟩

def removeExact (t : BPlusRecipeIndex) (key : ℕ) : Option (BPlusRecipeIndex × Option VmEntry) :=
  match t.root with
  | none => some (⟨none⟩, none)
  | some root =>
    if (root.predecessor key).all fun e => e.range.start ≠ key then some (t, none)
    else do
      let (nodes, removed) ← root.removeNode key
      let root ← buildRootFromLevel nodes root.height
      some (⟨root⟩, removed)

def replaceRangeWithRecorder (t : BPlusRecipeIndex) (range : UserRange) (rs : List VmEntry)
    (removed : RemovedRecipeRecorder) : Option (BPlusRecipeIndex × RemovedRecipeRecorder) :=
  let rs := rs.mergeSort fun a b => a.range.start ≤ b.range.start
  match t.root with
  | some root => do
    let r ← root.replaceRangeNode range ⟨rs, false⟩ removed
    let next ← buildRootFromLevel (r.edited.toNodes root) root.height
    let next ← if r.cursor.inserted then some ⟨next⟩
      else r.cursor.entries.foldlM insertEntry ⟨next⟩
    some (next, r.removed)
  | none => (buildFromEntries rs).map fun root => (⟨root⟩, removed)

def replaceRange (t : BPlusRecipeIndex) (range : UserRange) (rs : List VmEntry) :
    Option (BPlusRecipeIndex × List VmEntry) :=
  (t.replaceRangeWithRecorder range rs .collecting).map fun r => (r.1, r.2.entries.getD [])

def replaceRangeSummary (t : BPlusRecipeIndex) (range : UserRange) (rs : List VmEntry) :
    Option (BPlusRecipeIndex × RemovedRecipeSummary) :=
  (t.replaceRangeWithRecorder range rs .summaryOnly).map fun r => (r.1, r.2.summary)

def replaceOneEntryWithRewrite (t : BPlusRecipeIndex) (existing : ℕ) (rewrite : VmEntryRewrite) :
    Option (BPlusRecipeIndex × RemovedRecipeSummary) :=
  match t.root with
  | none => some (⟨none⟩, .default)
  | some root => do
    let (edited, removed) ← root.replaceOneEntryNode existing rewrite
    if removed.count = 0 then some (t, removed)
    else do
      let root ← buildRootFromLevel (edited.toNodes root) root.height
      some (⟨root⟩, removed)

def replaceOneEntryWithProtect (zone : ℕ → Bool) (heap : PrivateHeap) (t : BPlusRecipeIndex)
    (existing : ℕ) (w : VmEntryProtectRewrite) :
    Option (Except VmMapError (PrivateHeap × BPlusRecipeIndex × RemovedRecipeSummary)) :=
  match t.root with
  | none => some (.ok (heap, ⟨none⟩, .default))
  | some root =>
    match root.protectOneEntryNode zone heap existing w with
    | none => none
    | some (_, .error err) => some (.error err)
    | some (edited, .ok (heap, removed)) =>
      if removed.count = 0 then some (.ok (heap, t, removed))
      else do
        let root ← buildRootFromLevel (edited.toNodes root) root.height
        some (.ok (heap, ⟨root⟩, removed))

end BPlusRecipeIndex

/-! ### The tree with its counters -/

abbrev BPlusTree := RecipeTreeWith BPlusRecipeIndex

namespace BPlusTree

def new : BPlusTree := ⟨.new, 0, 0⟩

def insertEntry (t : BPlusTree) (e : VmEntry) : Option BPlusTree :=
  (t.inner.insertEntry e).map fun inner => t.inserted inner e

def removeExact (t : BPlusTree) (key : ℕ) : Option (BPlusTree × Option VmEntry) :=
  (t.inner.removeExact key).map fun r => (t.removedOne r.1 r.2, r.2)

def replaceExact (t : BPlusTree) (e : VmEntry) : Option (Except VmMapError BPlusTree) := do
  let (without, removed) ← removeExact t e.range.start
  match removed with
  | none => some (.error .missingMapping)
  | some old =>
    if old.range ≠ e.range then some (.error .invalidRange)
    else (insertEntry without e).map .ok

def replaceRange (t : BPlusTree) (range : UserRange) (rs : List VmEntry) :
    Option (BPlusTree × List VmEntry) :=
  (t.inner.replaceRange range rs).map fun r =>
    (t.replaced r.1 ⟨r.2.length, vmSizeOf r.2⟩ rs, r.2)

def replaceRangeSummary (t : BPlusTree) (range : UserRange) (rs : List VmEntry) :
    Option (BPlusTree × RemovedRecipeSummary) :=
  (t.inner.replaceRangeSummary range rs).map fun r => (t.replaced r.1 r.2 rs, r.2)

def replaceEntryAtWithRewriteSummary (t : BPlusTree) (existing : ℕ) (rewrite : VmEntryRewrite) :
    Option (BPlusTree × RemovedRecipeSummary) :=
  if (t.inner.lookupRef existing).isNone then some (t, .default)
  else
    (t.inner.replaceOneEntryWithRewrite existing rewrite).map fun r =>
      if r.2.count = 0 then (t, r.2)
      else (⟨r.1, t.len - r.2.count + rewrite.replacementCount,
        t.vmSize - r.2.vmSize + rewrite.replacementVmSize⟩, r.2)

def replaceEntryAtWithProtectSummary (zone : ℕ → Bool) (heap : PrivateHeap) (t : BPlusTree)
    (existing : ℕ) (w : VmEntryProtectRewrite) :
    Option (Except VmMapError (PrivateHeap × BPlusTree × RemovedRecipeSummary)) :=
  match t.inner.lookupRef existing with
  | none => some (.ok (heap, t, .default))
  | some entry =>
    match w.replacementCountFor entry, w.replacementVmSizeFor entry with
    | .error err, _ => some (.error (recipeTreeVmEntryError err))
    | .ok _, .error err => some (.error (recipeTreeVmEntryError err))
    | .ok count, .ok size =>
      (t.inner.replaceOneEntryWithProtect zone heap existing w).map fun r =>
        r.map fun (heap, inner, removed) =>
          if removed.count = 0 then (heap, t, removed)
          else (heap, ⟨inner, t.len - removed.count + count, t.vmSize - removed.vmSize + size⟩,
            removed)

end BPlusTree

end TxKernel.Vm
