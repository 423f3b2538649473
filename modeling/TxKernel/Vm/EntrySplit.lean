import TxKernel.Vm.PrivatePages

/-!
Cutting a mapping entry. A piece keeps protection, flags and tag, reads its backing from the offset
at which it starts, and gets a slice of the private page set. Sets made for a rewrite that fails are
dropped with it.
-/

namespace TxKernel.Vm

structure VmEntryRewrite where
  before : Option VmEntry
  target : Option VmEntry
  after : Option VmEntry
  deriving DecidableEq

namespace VmEntryRewrite

def intoEntries (r : VmEntryRewrite) : List VmEntry :=
  r.before.toList ++ r.target.toList ++ r.after.toList

def replacementCount (r : VmEntryRewrite) : ℕ :=
  r.before.toList.length + r.target.toList.length + r.after.toList.length

def replacementVmSize (r : VmEntryRewrite) : ℕ :=
  vmSizeOf r.before.toList + vmSizeOf r.target.toList + vmSizeOf r.after.toList

end VmEntryRewrite

namespace VmEntryBacking

def atRangeOffset (delta : ℕ) : VmEntryBacking → Except VmEntryError VmEntryBacking
  | .none => .ok .none
  | .privateAnon => .ok .privateAnon
  | .page offset =>
    match checkedAdd offset delta with
    | .some o => .ok (.page o)
    | .none => .error .backingOffsetOverflow

lemma page_of_atRangeOffset {b c : VmEntryBacking} {delta : ℕ} {o : UInt64}
    (h : b.atRangeOffset delta = .ok c) (hc : c = .page o) : ∃ o', b = .page o' := by
  cases b <;> simp_all [atRangeOffset]

end VmEntryBacking

namespace VmEntry

def piece (e : VmEntry) (range : UserRange) (prot : Prot) (delta : ℕ) (backing : VmEntryBacking)
    (h : e.backing.atRangeOffset delta = .ok backing) (priv : Option ℕ) : VmEntry :=
  { e with
    range := range
    prot := prot
    backing := backing
    owners := { e.owners with priv := priv }
    page_owner := fun o ho => by
      obtain ⟨o', ho'⟩ := VmEntryBacking.page_of_atRangeOffset h ho
      exact e.page_owner o' ho'
    special_backing := fun hs => by
      rw [e.special_backing hs] at h
      exact (Except.ok.inj h).symm }

variable (zone : ℕ → Bool)

def subPrivate (heap : PrivateHeap) (e : VmEntry) (start stop : ℕ) (prot : Prot) :
    Except PrivatePageError (PrivateHeap × Option ℕ) :=
  match e.owners.priv with
  | some parent =>
    if heap.isEmpty parent then
      if prot.write then (heap.newCap zone).map fun r => (r.1, some r.2) else .ok (heap, none)
    else
      let parentStartPage := e.range.start / userPageSize
      let rebaseDelta := start / userPageSize - parentStartPage
      (heap.split zone parent rebaseDelta (stop / userPageSize - parentStartPage)
        rebaseDelta).map fun r => (r.1, some r.2)
  | none =>
    if needsPrivate e.flags prot then (heap.newCap zone).map fun r => (r.1, some r.2)
    else .ok (heap, none)

def subEntry (heap : PrivateHeap) (e : VmEntry) (start stop : ℕ) (prot : Prot) :
    Except VmEntryError (PrivateHeap × VmEntry) :=
  if stop < start then .error .rangeNotContained
  else match UserRange.newAligned start (stop - start) with
    | .error err => .error (.range err)
    | .ok range =>
      let delta := start - e.range.start
      match h : e.backing.atRangeOffset delta with
      | .error err => .error err
      | .ok backing =>
        match subPrivate zone heap e start stop prot with
        | .error err => .error (.priv err)
        | .ok (heap, priv) => .ok (heap, e.piece range prot delta backing h priv)

def subEntryIf (c : Bool) (heap : PrivateHeap) (e : VmEntry) (start stop : ℕ) (prot : Prot) :
    Except VmEntryError (PrivateHeap × Option VmEntry) :=
  if c then (subEntry zone heap e start stop prot).map fun r => (r.1, some r.2)
  else .ok (heap, none)

/-- The whole entry under a new protection. A private mapping that becomes writable gets its
set here. -/
def protectWhole (heap : PrivateHeap) (e : VmEntry) (prot : Prot) :
    Except VmEntryError (PrivateHeap × VmEntry) :=
  if e.owners.priv.isNone && needsPrivate e.flags prot then
    match heap.newCap zone with
    | .error err => .error (.priv err)
    | .ok (heap, set) => .ok (heap, withPrivate { e with prot := prot } (some set))
  else .ok (heap, { e with prot := prot })

def subTarget (heap : PrivateHeap) (e : VmEntry) (target : UserRange) :
    Option Prot → Except VmEntryError (PrivateHeap × Option VmEntry)
  | some prot => subEntryIf zone true heap e target.start target.stop prot
  | none => .ok (heap, none)

/-- Cut the entry at `target`: the part before, the part itself under a new protection unless
it goes away, and the part after. -/
def splitRewrite (heap : PrivateHeap) (e : VmEntry) (target : UserRange)
    (targetProt : Option Prot) : Except VmEntryError (PrivateHeap × VmEntryRewrite) :=
  if ¬ e.range.containsRange target then .error .rangeNotContained
  else if e.range = target then
    match targetProt with
    | none => .ok (heap, ⟨none, none, none⟩)
    | some prot => (protectWhole zone heap e prot).map fun r => (r.1, ⟨none, some r.2, none⟩)
  else do
    let (heap, before) ←
      subEntryIf zone (e.range.start < target.start) heap e e.range.start target.start e.prot
    let (heap, targetEntry) ← subTarget zone heap e target targetProt
    let (heap, after) ←
      subEntryIf zone (target.stop < e.range.stop) heap e target.stop e.range.stop e.prot
    .ok (heap, ⟨before, targetEntry, after⟩)

def splitForUnmap (heap : PrivateHeap) (e : VmEntry) (hole : UserRange) :
    Except VmEntryError (PrivateHeap × VmEntryRewrite) := splitRewrite zone heap e hole none

def splitForProtect (heap : PrivateHeap) (e : VmEntry) (target : UserRange) (prot : Prot) :
    Except VmEntryError (PrivateHeap × VmEntryRewrite) :=
  splitRewrite zone heap e target (some prot)

end VmEntry

structure VmEntryProtectRewrite where
  target : UserRange
  prot : Prot

namespace VmEntryProtectRewrite

def replacementCountFor (w : VmEntryProtectRewrite) (existing : VmEntry) :
    Except VmEntryError ℕ :=
  if existing.range.containsRange w.target then
    .ok ((if existing.range.start < w.target.start then 1 else 0) + 1 +
      (if w.target.stop < existing.range.stop then 1 else 0))
  else .error .rangeNotContained

def replacementVmSizeFor (w : VmEntryProtectRewrite) (existing : VmEntry) :
    Except VmEntryError ℕ :=
  if existing.range.containsRange w.target then .ok existing.range.len
  else .error .rangeNotContained

def intoRewriteFor (zone : ℕ → Bool) (heap : PrivateHeap) (w : VmEntryProtectRewrite)
    (existing : VmEntry) : Except VmEntryError (PrivateHeap × VmEntryRewrite) :=
  existing.splitForProtect zone heap w.target w.prot

end VmEntryProtectRewrite

def recipeTreeVmEntryError : VmEntryError → VmMapError
  | .range _ => .invalidRange
  | .rangeNotContained => .invalidRange
  | .backingOffsetOverflow => .backingOffsetOverflow
  | .priv e => .priv e

def vmEntryError : VmEntryError → VmMapError
  | .backingOffsetOverflow => .backingOffsetOverflow
  | .range _ => .alreadyMapped
  | .rangeNotContained => .alreadyMapped
  | .priv e => .priv e

namespace RecipeTree

def replaceEntryAtWithRewriteSummary (t : RecipeTree) (existing : ℕ) (rewrite : VmEntryRewrite) :
    RecipeTree × RemovedRecipeSummary :=
  match t.lookup existing with
  | none => (t, .default)
  | some e => t.replaceRangeSummary e.range rewrite.intoEntries

def replaceEntryAtWithProtectSummary (zone : ℕ → Bool) (heap : PrivateHeap) (t : RecipeTree)
    (existing : ℕ) (w : VmEntryProtectRewrite) :
    Except VmMapError (PrivateHeap × RecipeTree × RemovedRecipeSummary) :=
  match t.lookup existing with
  | none => .ok (heap, t, .default)
  | some e =>
    match w.intoRewriteFor zone heap e with
    | .error err => .error (recipeTreeVmEntryError err)
    | .ok (heap, rewrite) => .ok (heap, t.replaceEntryAtWithRewriteSummary existing rewrite)

end RecipeTree

end TxKernel.Vm
