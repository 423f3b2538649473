import TxKernel.Vm.RecipeTree

/-!
Private pages: the frames that copy-on-write has split off a mapping, and the sets that hold them.
Frames and sets are named by their position on a heap. Tree nodes are values: the in-place insertion
of the source runs only on a path that no other tree holds. Keys are added in `u64` as a release
build adds, and wrap around.
-/

namespace TxKernel.Vm

open TxKernel.Treap

structure PrivateFrame where
  ppn : ℕ
  state : PrivateFrameState
  deriving Repr, DecidableEq

def snapshotFromFrame (f : PrivateFrame) : PrivateFrameSnapshot := ⟨f.ppn, f.state⟩

/-- What a compare-and-swap on a private page expects to find. -/
structure PrivateFrameIdentity where
  ppn : ℕ
  state : PrivateFrameState
  deriving Repr, DecidableEq

def privateCache : Cache ℕ ℕ where
  empty := 0
  join _ l r := 1 + l + r

abbrev PrivatePageNode := Tree ℕ ℕ

def privatePagePriority (key : ℕ) : UInt64 := splitmix64 (UInt64.ofNat key)

structure PrivatePageTree where
  root : PrivatePageNode
  len : ℕ
  deriving Repr, DecidableEq

namespace PrivatePageTree

def default : PrivatePageTree := ⟨.nil, 0⟩

def lookup (t : PrivatePageTree) (key : ℕ) : Option ℕ := t.root.find key

def insertPrivateNode (root : PrivatePageNode) (key frame : ℕ) : PrivatePageNode :=
  root.insert privateCache key (privatePagePriority key) frame

def insertIfAbsent (t : PrivatePageTree) (key frame : ℕ) : Except ℕ PrivatePageTree :=
  match t.lookup key with
  | some existing => .error existing
  | none => .ok ⟨insertPrivateNode t.root key frame, t.len + 1⟩

/-- `replace_exact`, once the frame found is the one expected. -/
def replaceExact (t : PrivatePageTree) (key frame : ℕ) : PrivatePageTree :=
  ⟨insertPrivateNode (t.root.remove privateCache key).1 key frame, t.len⟩

def removeIfMatch (t : PrivatePageTree) (key : ℕ) : PrivatePageTree :=
  ⟨(t.root.remove privateCache key).1, t.len - 1⟩

def drainRange (t : PrivatePageTree) (start stop : ℕ) : PrivatePageTree :=
  let s := t.root.splitBefore privateCache start
  let r := s.2.splitBefore privateCache stop
  let root := Tree.merge privateCache s.1 r.2
  ⟨root, root.cached privateCache⟩

def slice (t : PrivatePageTree) (start stop : ℕ) : PrivatePageTree :=
  let s := t.root.splitBefore privateCache start
  let r := s.2.splitBefore privateCache stop
  ⟨r.1, r.1.cached privateCache⟩

end PrivatePageTree

structure PrivatePageSet where
  pages : PrivatePageTree
  keyBase : ℕ
  deriving Repr, DecidableEq

namespace PrivatePageSet

def new : PrivatePageSet := ⟨.default, 0⟩

def keyFor (s : PrivatePageSet) (off : ℕ) : ℕ := (s.keyBase + off) % 2 ^ 64

def lookup (s : PrivatePageSet) (off : ℕ) : Option ℕ := s.pages.lookup (s.keyFor off)

def sliced (s : PrivatePageSet) (start stop rebaseDelta : ℕ) : PrivatePageSet :=
  ⟨s.pages.slice (s.keyFor start) (s.keyFor stop), (s.keyBase + rebaseDelta) % 2 ^ 64⟩

end PrivatePageSet

structure PrivateHeap where
  frames : List PrivateFrame
  sets : List PrivatePageSet
  deriving Repr, DecidableEq

namespace PrivateHeap

def empty : PrivateHeap := ⟨[], []⟩

def frame (h : PrivateHeap) (f : ℕ) : PrivateFrame := h.frames.getD f ⟨0, .exclusive⟩

def set (h : PrivateHeap) (s : ℕ) : PrivatePageSet := h.sets.getD s .new

def withPages (h : PrivateHeap) (s : ℕ) (pages : PrivatePageTree) : PrivateHeap :=
  { h with sets := h.sets.set s { h.set s with pages := pages } }

def newFrame (h : PrivateHeap) (f : PrivateFrame) : PrivateHeap :=
  { h with frames := h.frames ++ [f] }

def newSet (h : PrivateHeap) (s : PrivatePageSet) : PrivateHeap :=
  { h with sets := h.sets ++ [s] }

/-- Reserve a slot in the zone of sets and sign it; `zone n` says whether the reservation of
the `n`-th set succeeds. -/
def newCapWith (zone : ℕ → Bool) (h : PrivateHeap) (s : PrivatePageSet) :
    Except PrivatePageError (PrivateHeap × ℕ) :=
  if zone h.sets.length then .ok (h.newSet s, h.sets.length)
  else .error .zone

def newCap (zone : ℕ → Bool) (h : PrivateHeap) : Except PrivatePageError (PrivateHeap × ℕ) :=
  h.newCapWith zone .new

def lookupFrame (h : PrivateHeap) (s off : ℕ) : Option ℕ := (h.set s).lookup off

def lookup (h : PrivateHeap) (s off : ℕ) : Option PrivateFrameSnapshot :=
  (h.lookupFrame s off).map fun f => snapshotFromFrame (h.frame f)

def installIfAbsent (h : PrivateHeap) (s off : ℕ) (new : PrivateFrame) :
    PrivateHeap × Except PrivatePageError PrivateFrameSnapshot :=
  match (h.set s).pages.insertIfAbsent ((h.set s).keyFor off) h.frames.length with
  | .ok pages => ((h.newFrame new).withPages s pages, .ok (snapshotFromFrame new))
  | .error existing => (h, .error (.conflict (snapshotFromFrame (h.frame existing))))

def expectMatch (h : PrivateHeap) (s off : ℕ) (expected : PrivateFrameIdentity) :
    Except PrivatePageError ℕ :=
  match h.lookupFrame s off with
  | none => .error .missing
  | some existing =>
    if (h.frame existing).ppn ≠ expected.ppn ∨ (h.frame existing).state ≠ expected.state then
      .error (.conflict (snapshotFromFrame (h.frame existing)))
    else .ok existing

def replaceIfMatch (h : PrivateHeap) (s off : ℕ) (expected : PrivateFrameIdentity)
    (new : PrivateFrame) : PrivateHeap × Except PrivatePageError PrivateFrameSnapshot :=
  match h.expectMatch s off expected with
  | .error e => (h, .error e)
  | .ok _ =>
    let pages := (h.set s).pages.replaceExact ((h.set s).keyFor off) h.frames.length
    ((h.newFrame new).withPages s pages, .ok (snapshotFromFrame new))

def takeIfMatch (h : PrivateHeap) (s off : ℕ) (expected : PrivateFrameIdentity) :
    PrivateHeap × Except PrivatePageError PrivateFrameSnapshot :=
  match h.expectMatch s off expected with
  | .error e => (h, .error e)
  | .ok existing =>
    (h.withPages s ((h.set s).pages.removeIfMatch ((h.set s).keyFor off)),
      .ok (snapshotFromFrame (h.frame existing)))

def setState (h : PrivateHeap) (f : ℕ) (state : PrivateFrameState) : PrivateHeap :=
  { h with frames := h.frames.set f { h.frame f with state := state } }

def demoteIfMatch (h : PrivateHeap) (s off : ℕ) (expected : PrivateFrameIdentity) :
    PrivateHeap × Except PrivatePageError PrivateFrameSnapshot :=
  match h.expectMatch s off expected with
  | .error e => (h, .error e)
  | .ok existing =>
    (h.setState existing .sharedCow,
      .ok (snapshotFromFrame ((h.setState existing .sharedCow).frame existing)))

def drainRange (h : PrivateHeap) (s start stop : ℕ) : PrivateHeap :=
  h.withPages s
    ((h.set s).pages.drainRange ((h.set s).keyFor start) ((h.set s).keyFor stop))

def isEmpty (h : PrivateHeap) (s : ℕ) : Bool := (h.set s).pages.len = 0

def setTreeFramesShared (h : PrivateHeap) : PrivatePageNode → PrivateHeap
  | .nil => h
  | .node _ _ f l r _ =>
    ((h.setTreeFramesShared l).setState f .sharedCow).setTreeFramesShared r

/-- Demote every frame of the set and hand out a sibling set on the same tree. The demotion stays
even when the zone has no room. -/
def forkShare (zone : ℕ → Bool) (h : PrivateHeap) (s : ℕ) :
    PrivateHeap × Except PrivatePageError ℕ :=
  let h1 := h.setTreeFramesShared (h.set s).pages.root
  match h1.newCapWith zone (h.set s) with
  | .ok (h2, child) => (h2, .ok child)
  | .error e => (h1, .error e)

def split (zone : ℕ → Bool) (h : PrivateHeap) (s start stop rebaseDelta : ℕ) :
    Except PrivatePageError (PrivateHeap × ℕ) :=
  h.newCapWith zone ((h.set s).sliced start stop rebaseDelta)

end PrivateHeap

end TxKernel.Vm
