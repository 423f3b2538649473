import TxKernel.Vm.EntrySplit

/-!
Rewrites of the recipe tree: mapping, unmapping, protecting, locking and moving pages. The index
publishes a new tree only after the whole rewrite has gone through. The loops of the source visit
the overlapping entries with a visitor that does nothing more once it has recorded an error. Traces,
timings and counts of touched nodes are left out.
-/

namespace TxKernel.Vm

structure AddressSpaceStats where
  recipeCount : ℕ
  vmSize : ℕ
  deriving Repr, DecidableEq

structure AddressSpaceStatsDelta where
  recipeCount : ℤ
  vmSize : ℤ
  deriving Repr, DecidableEq

namespace AddressSpaceStatsDelta

def default : AddressSpaceStatsDelta := ⟨0, 0⟩

def forInsert (e : VmEntry) : AddressSpaceStatsDelta := ⟨1, e.range.len⟩

def addEntry (d : AddressSpaceStatsDelta) (e : VmEntry) : AddressSpaceStatsDelta :=
  ⟨d.recipeCount + 1, d.vmSize + e.range.len⟩

def subtractEntry (d : AddressSpaceStatsDelta) (e : VmEntry) : AddressSpaceStatsDelta :=
  ⟨d.recipeCount - 1, d.vmSize - e.range.len⟩

end AddressSpaceStatsDelta

inductive MapPlacement
  | requireFree
  | fixedReplace
  deriving Repr, DecidableEq

inductive VmRemapPlacement
  | move
  | inPlace
  deriving Repr, DecidableEq

namespace UserRange

def intersection (a b : UserRange) : Option UserRange :=
  let start := max a.start b.start
  let stop := min a.stop b.stop
  if start ≥ stop then none
  else match newAligned start (stop - start) with
    | .ok r => some r
    | .error _ => none

end UserRange

/-- A visitor that skips everything after its first error. -/
def untilError {σ : Type} (visit : σ → VmEntry → Except VmMapError σ) :
    Except VmMapError σ → VmEntry → Except VmMapError σ
  | .error err, _ => .error err
  | .ok st, e => visit st e

structure RecipeRewrite where
  heap : PrivateHeap
  tree : RecipeTree
  changedPages : ℕ
  statsDelta : AddressSpaceStatsDelta

namespace RecipeTree

def statsFor (t : RecipeTree) : AddressSpaceStats := ⟨t.len, t.vmSize⟩

def statsDeltaBetween (before after : RecipeTree) : AddressSpaceStatsDelta :=
  ⟨(after.statsFor.recipeCount : ℤ) - before.statsFor.recipeCount,
    (after.statsFor.vmSize : ℤ) - before.statsFor.vmSize⟩

/-! ### Checks -/

def validateInsertFree (t : RecipeTree) (range : UserRange) : Except VmMapError Unit :=
  if (t.predecessorRef range.start).any (fun e => e.range.overlaps range) ||
      (t.successorRef range.start).any (fun e => e.range.overlaps range) then
    .error .alreadyMapped
  else .ok ()

structure Coverage where
  cursor : ℕ
  contiguous : Bool

def Coverage.visit (stop : ℕ) (c : Coverage) (e : VmEntry) : Coverage :=
  if !c.contiguous || decide (c.cursor ≥ stop) then c
  else if e.range.start > c.cursor then { c with contiguous := false }
  else { c with cursor := max c.cursor (min e.range.stop stop) }

def Coverage.complete (stop : ℕ) (c : Coverage) : Bool :=
  c.contiguous && decide (c.cursor ≥ stop)

def rangeIsFullyMapped (t : RecipeTree) (range : UserRange) : Bool :=
  (t.forEachOverlapping range (Coverage.visit range.stop) ⟨range.start, true⟩).complete range.stop

def rangeHasProtection (t : RecipeTree) (range : UserRange) (prot : Prot) :
    Except VmMapError Bool :=
  if t.rangeIsFullyMapped range then
    .ok (t.forEachOverlapping range (fun unchanged e => unchanged && decide (e.prot = prot)) true)
  else .error .missingMapping

end RecipeTree

/-! ### Mapping on free pages -/

namespace VmEntry

def asVmBacking (e : VmEntry) : VmBacking :=
  match e.owners.special with
  | some s => .special s
  | none =>
    match h : e.backing with
    | .none => .none
    | .privateAnon => .privateAnon
    | .page offset => .page (e.owners.page.get (e.page_owner offset h)) offset

def withUfdRegistration (e : VmEntry) (tag : Option UfdRegistration) : VmEntry :=
  { e with ufdRegistration := tag }

/-- The private set of two adjacent entries made one: the right entry must not have pages. -/
def mergedPrivate (heap : PrivateHeap) : Option ℕ → Option ℕ → Option (Option ℕ)
  | some l, some r => if heap.isEmpty r then some (some l) else none
  | some l, none => some (some l)
  | none, some r => if heap.isEmpty r then some (some r) else none
  | none, none => some none

def tryMergeAdjacentEntries (heap : PrivateHeap) (left right : VmEntry) :
    Except VmMapError (Option VmEntry) :=
  if left.range.stop ≠ right.range.start ∨ left.prot ≠ right.prot ∨ left.flags ≠ right.flags ∨
      left.hasContiguousBackingWith right = false ∨
      left.ufdRegistration ≠ right.ufdRegistration then .ok none
  else match mergedPrivate heap left.owners.priv right.owners.priv with
    | none => .ok none
    | some priv =>
      match UserRange.newAligned left.range.start (right.range.stop - left.range.start) with
      | .error _ => .error .invalidRange
      | .ok range =>
        .ok (some (((VmEntry.new range left.prot left.flags left.asVmBacking).withUfdRegistration
          left.ufdRegistration).withPrivate priv))

end VmEntry

namespace RecipeTree

/-- A mapping on its way in: the tree without the neighbours it has swallowed. -/
structure Coalescing where
  tree : RecipeTree
  merged : VmEntry
  removedEntries : ℕ
  removedVmSize : ℕ

def Coalescing.swallow (st : Coalescing) (join : VmEntry → Except VmMapError (Option VmEntry)) :
    Option VmEntry → Except VmMapError Coalescing
  | none => .ok st
  | some n =>
    match join n with
    | .error err => .error err
    | .ok none => .ok st
    | .ok (some joined) =>
      .ok ⟨(st.tree.removeExact n.range.start).1, joined, st.removedEntries + 1,
        st.removedVmSize + n.range.len⟩

def insertCoalescingAdjacent (heap : PrivateHeap) (t : RecipeTree) (entry : VmEntry) :
    Except VmMapError (RecipeTree × AddressSpaceStatsDelta) := do
  let st ← Coalescing.swallow ⟨t, entry, 0, 0⟩
    (fun left => VmEntry.tryMergeAdjacentEntries heap left entry)
    (t.predecessorRef entry.range.start)
  let st ← st.swallow (fun right => VmEntry.tryMergeAdjacentEntries heap st.merged right)
    (t.successorRef st.merged.range.stop)
  .ok (st.tree.insertEntry st.merged,
    ⟨1 - st.removedEntries, (st.merged.range.len : ℤ) - st.removedVmSize⟩)

end RecipeTree

/-! ### Rewriting a range -/

namespace RecipeTree

variable (zone : ℕ → Bool)

structure CutScan where
  heap : PrivateHeap
  pages : ℕ
  statsDelta : AddressSpaceStatsDelta
  replacements : List VmEntry

def CutScan.push (st : CutScan) (existing : VmEntry) (overlap : UserRange) (heap : PrivateHeap)
    (pieces : List VmEntry) : CutScan :=
  ⟨heap, st.pages + overlap.pageCount,
    pieces.foldl AddressSpaceStatsDelta.addEntry (st.statsDelta.subtractEntry existing),
    st.replacements ++ pieces⟩

def cutForFixed (range : UserRange) (st : CutScan) (existing : VmEntry) :
    Except VmMapError CutScan :=
  match existing.range.intersection range with
  | none => .ok st
  | some overlap =>
    match existing.splitForUnmap zone st.heap overlap with
    | .error err => .error (vmEntryError err)
    | .ok (heap, w) => .ok (st.push existing overlap heap (w.before.toList ++ w.after.toList))

def rewriteFixed (heap : PrivateHeap) (t : RecipeTree) (replacement : VmEntry) :
    Except VmMapError RecipeRewrite := do
  let scan ← t.forEachOverlapping replacement.range
    (untilError (cutForFixed zone replacement.range))
    (.ok ⟨heap, 0, .forInsert replacement, []⟩)
  let replacements := (scan.replacements ++ [replacement]).mergeSort
    fun a b => a.range.start ≤ b.range.start
  .ok ⟨scan.heap, (t.replaceRangeSummary replacement.range replacements).1,
    scan.pages + replacement.range.pageCount, scan.statsDelta⟩

structure UnmapScan where
  heap : PrivateHeap
  survivors : List VmEntry
  removedEntries : ℕ
  removedVmSize : ℕ

def pushUnmapSurvivors (range : UserRange) (st : UnmapScan) (existing : VmEntry) :
    Except VmMapError UnmapScan :=
  let st := { st with
    removedEntries := st.removedEntries + 1
    removedVmSize := st.removedVmSize + existing.range.len }
  match existing.range.intersection range with
  | none => .ok st
  | some overlap =>
    match existing.splitForUnmap zone st.heap overlap with
    | .error err => .error (vmEntryError err)
    | .ok (heap, w) =>
      .ok { st with
        heap := heap
        survivors := st.survivors ++ (w.before.toList ++ w.after.toList) }

def rewriteUnmap (heap : PrivateHeap) (t : RecipeTree) (range : UserRange) :
    Except VmMapError RecipeRewrite := do
  let scan ← t.forEachOverlapping range (untilError (pushUnmapSurvivors zone range))
    (.ok ⟨heap, [], 0, 0⟩)
  if scan.removedEntries = 0 then .ok ⟨heap, t, 0, .default⟩
  else
    let survivorVmSize := vmSizeOf scan.survivors
    .ok ⟨scan.heap, (t.replaceRangeSummary range scan.survivors).1,
      (scan.removedVmSize - survivorVmSize) / userPageSize,
      ⟨(scan.survivors.length : ℤ) - scan.removedEntries,
        (survivorVmSize : ℤ) - scan.removedVmSize⟩⟩

structure SingleProtect where
  existingStart : Option ℕ
  changedPages : ℕ
  replacementCount : ℕ

def describeProtect (range : UserRange) (prot : Prot) (_ : SingleProtect) (existing : VmEntry) :
    Except VmMapError SingleProtect :=
  match existing.range.intersection range with
  | none => .error .missingMapping
  | some overlap =>
    match (VmEntryProtectRewrite.mk overlap prot).replacementCountFor existing with
    | .error err => .error (vmEntryError err)
    | .ok count => .ok ⟨some existing.range.start, overlap.pageCount, count⟩

def rewriteProtectOne (heap : PrivateHeap) (t : RecipeTree) (range : UserRange) (prot : Prot) :
    Except VmMapError RecipeRewrite := do
  let one ← t.forEachOverlapping range (untilError (describeProtect range prot)) (.ok ⟨none, 0, 0⟩)
  match one.existingStart with
  | none => .error .missingMapping
  | some existingStart =>
    if one.replacementCount = 0 then .error .missingMapping
    else do
      let r ← t.replaceEntryAtWithProtectSummary zone heap existingStart ⟨range, prot⟩
      .ok ⟨r.1, r.2.1, one.changedPages, ⟨(one.replacementCount : ℤ) - 1, 0⟩⟩

def cutForProtect (range : UserRange) (prot : Prot) (st : CutScan) (existing : VmEntry) :
    Except VmMapError CutScan :=
  match existing.range.intersection range with
  | none => .error .missingMapping
  | some overlap =>
    match existing.splitForProtect zone st.heap overlap prot with
    | .error err => .error (vmEntryError err)
    | .ok (heap, w) => .ok (st.push existing overlap heap w.intoEntries)

def rewriteProtect (heap : PrivateHeap) (t : RecipeTree) (range : UserRange) (prot : Prot) :
    Except VmMapError RecipeRewrite :=
  if !t.rangeIsFullyMapped range then .error .missingMapping
  else if t.forEachOverlapping range (fun n _ => n + 1) 0 = 1 then
    rewriteProtectOne zone heap t range prot
  else do
    let scan ← t.forEachOverlapping range (untilError (cutForProtect zone range prot))
      (.ok ⟨heap, 0, .default, []⟩)
    .ok ⟨scan.heap, (t.replaceRangeSummary range scan.replacements).1, scan.pages, scan.statsDelta⟩

/-- Entries are taken whole here, also where they reach out of the range. -/
def rewriteLocked (heap : PrivateHeap) (t : RecipeTree) (range : UserRange) (locked : Bool) :
    Except VmMapError RecipeRewrite :=
  if !t.rangeIsFullyMapped range then .error .missingMapping
  else
    let r := t.forEachOverlapping range
      (fun (r : ℕ × List VmEntry) e => (r.1 + e.range.pageCount, r.2 ++ [e.withLocked locked]))
      (0, [])
    .ok ⟨heap, (t.replaceRangeSummary range r.2).1, r.1, .default⟩

end RecipeTree

/-! ### Moving and resizing -/

namespace VmEntry

def entryWithRange (e : VmEntry) (range : UserRange) : Except VmMapError VmEntry :=
  if e.range.start ≠ range.start ∨ range.stop < e.range.stop then .error .invalidRange
  else .ok (e.withRangePreservingOwners range)

variable (zone : ℕ → Bool)

/-- The part of `existing` in `movingOverlap`, moved as `old` moves to `new`. -/
def rebasedEntryForMove (heap : PrivateHeap) (existing : VmEntry)
    (movingOverlap old new : UserRange) : Except VmMapError (PrivateHeap × VmEntry) :=
  match existing.splitForProtect zone heap movingOverlap existing.prot with
  | .error err => .error (vmEntryError err)
  | .ok (heap, w) =>
    match w.target with
    | none => .error .missingMapping
    | some moving =>
      let delta := movingOverlap.start - old.start
      match UserRange.newAligned (new.start + delta) movingOverlap.len with
      | .error _ => .error .invalidRange
      | .ok target => .ok (heap, moving.withRangePreservingOwners target)

/-- What is left of one piece when `range` is taken out of it. -/
def removeRange (range : UserRange) (st : PrivateHeap × List VmEntry) (piece : VmEntry) :
    Except VmMapError (PrivateHeap × List VmEntry) :=
  match piece.range.intersection range with
  | none => .ok (st.1, st.2 ++ [piece])
  | some overlap =>
    match piece.splitForUnmap zone st.1 overlap with
    | .error err => .error (vmEntryError err)
    | .ok (heap, w) => .ok (heap, st.2 ++ (w.before.toList ++ w.after.toList))

def removeRemapCoveredRanges (heap : PrivateHeap) (e : VmEntry) (old new : UserRange) :
    Except VmMapError (PrivateHeap × List VmEntry) := do
  let st ← [e].foldlM (removeRange zone old) (heap, [])
  st.2.foldlM (removeRange zone new) (st.1, [])

end VmEntry

namespace RecipeTree

variable (zone : ℕ → Bool)

def treeFromEntries (es : List VmEntry) : RecipeTree := es.foldl insertEntry new

def pushMoved (source old new : UserRange) (st : PrivateHeap × List VmEntry)
    (existing : VmEntry) : Except VmMapError (PrivateHeap × List VmEntry) :=
  match existing.range.intersection source with
  | none => .ok st
  | some overlap =>
    match existing.rebasedEntryForMove zone st.1 overlap old new with
    | .error err => .error err
    | .ok (heap, moved) => .ok (heap, st.2 ++ [moved])

/-- Let the last moved entry reach to the end of a longer destination. -/
def growMoved (moved : List VmEntry) (old new : UserRange) : Except VmMapError (List VmEntry) :=
  if new.len > old.len then
    match moved.getLast? with
    | none => .error .missingMapping
    | some last =>
      match UserRange.newAligned last.range.start (last.range.len + (new.len - old.len)) with
      | .error _ => .error .invalidRange
      | .ok expanded =>
        match last.entryWithRange expanded with
        | .error err => .error err
        | .ok grown => .ok (moved.dropLast ++ [grown])
  else .ok moved

def pushKept (old new : UserRange) (st : PrivateHeap × List VmEntry) (existing : VmEntry) :
    Except VmMapError (PrivateHeap × List VmEntry) :=
  match existing.removeRemapCoveredRanges zone st.1 old new with
  | .error err => .error err
  | .ok (heap, pieces) => .ok (heap, st.2 ++ pieces)

def validateDestination (t : RecipeTree) (new : UserRange) :
    MapPlacement → Except VmMapError Unit
  | .requireFree => t.validateInsertFree new
  | .fixedReplace => .ok ()

def rewriteRemapDisjoint (heap : PrivateHeap) (t : RecipeTree) (old new : UserRange)
    (destination : MapPlacement) : Except VmMapError RecipeRewrite :=
  if old.overlaps new then .error .invalidRange
  else if !t.rangeIsFullyMapped old then .error .missingMapping
  else do
    t.validateDestination new destination
    let source ← (UserRange.newAligned old.start (min old.len new.len)).mapError
      fun _ => .invalidRange
    let (heap, moved) ← t.forEachOverlapping source (untilError (pushMoved zone source old new))
      (.ok (heap, []))
    let grown ← growMoved moved old new
    let (heap, kept) ← t.valuesVec.foldlM (pushKept zone old new) (heap, [])
    let rewritten := treeFromEntries (kept ++ grown)
    .ok ⟨heap, rewritten, old.pageCount + new.pageCount, statsDeltaBetween t rewritten⟩

def rewriteRemapInPlace (heap : PrivateHeap) (t : RecipeTree) (old new : UserRange) :
    Except VmMapError RecipeRewrite :=
  if old.start ≠ new.start then .error .invalidRange
  else if !t.rangeIsFullyMapped old then .error .missingMapping
  else if new.len = old.len then .ok ⟨heap, t, 0, .default⟩
  else if new.len < old.len then
    match UserRange.newAligned (old.start + new.len) (old.len - new.len) with
    | .error _ => .error .invalidRange
    | .ok shrink => rewriteUnmap zone heap t shrink
  else match UserRange.newAligned old.stop (new.len - old.len) with
    | .error _ => .error .invalidRange
    | .ok grow => do
      t.validateInsertFree grow
      match (t.lookup old.start).filter fun e => e.range = old with
      | none => .error .invalidRange
      | some existing =>
        let replacement ← existing.entryWithRange new
        let rewritten := insertEntry (t.removeExact old.start).1 replacement
        .ok ⟨heap, rewritten, old.pageCount + new.pageCount, statsDeltaBetween t rewritten⟩

end RecipeTree

/-! ### The published index -/

structure VmMapCommit where
  changedPages : ℕ
  statsDelta : AddressSpaceStatsDelta
  deriving Repr, DecidableEq

/-- Whether the `n`-th private page set gets its slot, and whether the new tree gets its memory. -/
structure Allocators where
  zone : ℕ → Bool
  publish : Bool

/-- The published tree, and the heap of the private page sets its entries own. -/
structure RecipeIndex where
  current : RecipeTree
  heap : PrivateHeap

namespace RecipeIndex

variable (alloc : Allocators)

def new : RecipeIndex := ⟨.new, .empty⟩

def lookup (x : RecipeIndex) (addr : ℕ) : Option VmEntry := x.current.lookup addr

/-- Rewrite the current tree and publish the result; on an error the current root stays. -/
def rewriteWith (x : RecipeIndex)
    (rewrite : PrivateHeap → RecipeTree → Except VmMapError RecipeRewrite) :
    RecipeIndex × Except VmMapError VmMapCommit :=
  match rewrite x.heap x.current with
  | .error err => (x, .error err)
  | .ok r =>
    if alloc.publish then (⟨r.tree, r.heap⟩, .ok ⟨r.changedPages, r.statsDelta⟩)
    else (x, .error .noFreeRange)

def rewriteMapFree (entry : VmEntry) (heap : PrivateHeap) (t : RecipeTree) :
    Except VmMapError RecipeRewrite := do
  t.validateInsertFree entry.range
  let r ← t.insertCoalescingAdjacent heap entry
  .ok ⟨heap, r.1, entry.range.pageCount, r.2⟩

def commitMap (x : RecipeIndex) (entry : VmEntry) :
    MapPlacement → RecipeIndex × Except VmMapError VmMapCommit
  | .requireFree => x.rewriteWith alloc (rewriteMapFree entry)
  | .fixedReplace => x.rewriteWith alloc fun heap t => t.rewriteFixed alloc.zone heap entry

def unmap (x : RecipeIndex) (range : UserRange) : RecipeIndex × Except VmMapError VmMapCommit :=
  x.rewriteWith alloc fun heap t => t.rewriteUnmap alloc.zone heap range

/-- Nothing is published when every page has the protection already. -/
def protect (x : RecipeIndex) (range : UserRange) (prot : Prot) :
    RecipeIndex × Except VmMapError VmMapCommit :=
  match x.current.rangeHasProtection range prot with
  | .error err => (x, .error err)
  | .ok true => (x, .ok ⟨0, .default⟩)
  | .ok false => x.rewriteWith alloc fun heap t => t.rewriteProtect alloc.zone heap range prot

def setLocked (x : RecipeIndex) (range : UserRange) (locked : Bool) :
    RecipeIndex × Except VmMapError VmMapCommit :=
  x.rewriteWith alloc fun heap t => t.rewriteLocked heap range locked

def remap (x : RecipeIndex) (old new : UserRange) (placement : VmRemapPlacement)
    (destination : MapPlacement) : RecipeIndex × Except VmMapError VmMapCommit :=
  x.rewriteWith alloc fun heap t =>
    match placement with
    | .move => t.rewriteRemapDisjoint alloc.zone heap old new destination
    | .inPlace => t.rewriteRemapInPlace alloc.zone heap old new

end RecipeIndex

end TxKernel.Vm
