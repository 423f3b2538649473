import TxKernel.Library.Runs
import TxKernel.Vm.PrivateCarry

/-!
Runs of an address space with private pages, beside a map that only knows which frame was last
installed for a page since the page was mapped.
-/

namespace TxKernel.Vm

open TxKernel.Spans TxKernel.Runs VmEntry UserRange

namespace RecipeIndex

variable (alloc : Allocators)

/-- The part of `reserve_map` that gives a private mapping its set. -/
def attachPrivate (zone : ℕ → Bool) (heap : PrivateHeap) (entry : VmEntry) :
    Except VmMapError (PrivateHeap × VmEntry) :=
  if !entry.flags.shared && entry.prot.write && entry.owners.priv.isNone then
    match heap.newCap zone with
    | .error err => .error (.priv err)
    | .ok (heap, set) => .ok (heap, entry.withPrivate (some set))
  else .ok (heap, entry)

def mapEntry (x : RecipeIndex) (entry : VmEntry) (placement : MapPlacement) :
    RecipeIndex × Except VmMapError VmMapCommit :=
  match attachPrivate alloc.zone x.heap entry with
  | .error err => (x, .error err)
  | .ok (heap, entry) =>
    match commitMap alloc ⟨x.current, heap⟩ entry placement with
    | (_, .error err) => (x, .error err)
    | (y, .ok commit) => (y, .ok commit)

/-- The set and the offset in it through which a fault at `addr` reaches its private page. -/
def resolvePrivate (x : RecipeIndex) (addr : ℕ) : Option (ℕ × ℕ) :=
  (x.lookup addr).bind fun e =>
    e.owners.priv.bind fun set => (e.pageOffsetOf addr).map fun off => (set, off)

def privateFrame (x : RecipeIndex) (addr : ℕ) : Option PrivateFrameSnapshot :=
  (x.resolvePrivate addr).bind fun p => x.heap.lookup p.1 p.2

/-- A write fault on a page without a private frame. -/
def installPrivate (x : RecipeIndex) (addr : ℕ) (frame : PrivateFrame) : RecipeIndex × Bool :=
  match x.resolvePrivate addr with
  | none => (x, false)
  | some (set, off) =>
    let r := x.heap.installIfAbsent set off frame
    (⟨x.current, r.1⟩, r.2.isOk)

/-- A write fault on a page whose private frame is shared. -/
def replacePrivate (x : RecipeIndex) (addr : ℕ) (expected : PrivateFrameIdentity)
    (frame : PrivateFrame) : RecipeIndex × Bool :=
  match x.resolvePrivate addr with
  | none => (x, false)
  | some (set, off) =>
    let r := x.heap.replaceIfMatch set off expected frame
    (⟨x.current, r.1⟩, r.2.isOk)

end RecipeIndex

inductive VmOp
  | map (range : UserRange) (prot : Prot) (flags : VmEntryFlags) (backing : VmBacking)
      (placement : MapPlacement)
  | unmap (range : UserRange)
  | protect (range : UserRange) (prot : Prot)
  | remap (old new : UserRange) (placement : VmRemapPlacement) (destination : MapPlacement)
  | install (addr : ℕ) (frame : PrivateFrame)
  | replace (addr : ℕ) (expected : PrivateFrameIdentity) (frame : PrivateFrame)

def VmOp.exec (alloc : Allocators) (x : RecipeIndex) : VmOp → RecipeIndex × Bool
  | .map range prot flags backing placement =>
    let r := x.mapEntry alloc (.new range prot flags backing) placement
    (r.1, r.2.isOk)
  | .unmap range => let r := x.unmap alloc range; (r.1, r.2.isOk)
  | .protect range prot => let r := x.protect alloc range prot; (r.1, r.2.isOk)
  | .remap old new placement destination =>
    let r := x.remap alloc old new placement destination
    (r.1, r.2.isOk)
  | .install addr frame => x.installPrivate addr frame
  | .replace addr expected frame => x.replacePrivate addr expected frame

/-- For every address the frame last installed for its page since the page was mapped. -/
abbrev InstalledFrames := ℕ → Option PrivateFrameSnapshot

namespace InstalledFrames

def clear (g : InstalledFrames) (range : UserRange) : InstalledFrames :=
  fun a => if range.containsAddr a then none else g a

/-- The pages of `old` go to the front of `new`, the rest of `new` is newly mapped. -/
def move (g : InstalledFrames) (old new : UserRange) : InstalledFrames := fun a =>
  if new.containsAddr a then
    if a - new.start < old.len then g (old.start + (a - new.start)) else none
  else if old.containsAddr a then none else g a

def install (g : InstalledFrames) (addr : ℕ) (frame : PrivateFrame) : InstalledFrames :=
  fun a => if a / userPageSize = addr / userPageSize then some (snapshotFromFrame frame) else g a

end InstalledFrames

/-- What a successful operation does to the installed frames. -/
def VmOp.onFrames (g : InstalledFrames) : VmOp → InstalledFrames
  | .map range _ _ _ _ => g.clear range
  | .unmap range => g.clear range
  | .protect _ _ => g
  | .remap old new _ _ => g.move old new
  | .install addr frame => g.install addr frame
  | .replace addr _ frame => g.install addr frame

/-- The pages that a successful operation has newly mapped. -/
def VmOp.Maps (a : ℕ) : VmOp → Prop
  | .map range _ _ _ _ => range.containsAddr a
  | .remap old new _ _ => new.containsAddr a ∧ old.len ≤ a - new.start
  | _ => False

/-- The index and the frames installed in it, one operation on. -/
def VmOp.step (s : RecipeIndex × InstalledFrames) (i : VmOp × Allocators) :
    (RecipeIndex × InstalledFrames) × Bool :=
  let r := i.1.exec i.2 s.1
  ((r.1, if r.2 then i.1.onFrames s.2 else s.2), r.2)

/-! ### Installing a frame -/

/-- The heap after set `s`, with pages for offsets below `n`, has taken a new frame under `off`. -/
structure Puts (heap : PrivateHeap) (s n off : ℕ) (frame : PrivateFrame) (heap' : PrivateHeap) :
    Prop where
  length : heap'.sets.length = heap.sets.length
  frames : heap'.frames = heap.frames ++ [frame]
  other : ∀ s', s' ≠ s → heap'.set s' = heap.set s'
  within : (heap'.set s).Within n (heap.frames.length + 1)
  lookup : ∀ off', off' < n → (heap'.set s).lookup off' =
    if off' = off then some heap.frames.length else (heap.set s).lookup off'

def PutsOr (heap : PrivateHeap) (s n off : ℕ) (frame : PrivateFrame)
    (r : PrivateHeap × Except PrivatePageError PrivateFrameSnapshot) : Prop :=
  (r.2.isOk = true ∧ Puts heap s n off frame r.1) ∨ (r.2.isOk = false ∧ r.1 = heap)

section

variable {heap heap' : PrivateHeap} {s n off : ℕ} {frame : PrivateFrame}

variable (hs : s < heap.sets.length) (hw : (heap.set s).Within n heap.frames.length)
  (hfit : (heap.set s).keyBase + n < 2 ^ 64) (hoff : off < n)
include hs hw hfit hoff

lemma puts_withPages {pages : PrivatePageTree} (hsound : pages.Sound) (hlook : ∀ k, pages.lookup k =
      if k = (heap.set s).keyFor off then some heap.frames.length
      else (heap.set s).pages.lookup k) :
    Puts heap s n off frame ((heap.newFrame frame).withPages s pages) := by
  have hset : ((heap.newFrame frame).withPages s pages).set s =
      ⟨pages, (heap.set s).keyBase⟩ := by
    simp [PrivateHeap.set, PrivateHeap.withPages, PrivateHeap.newFrame, List.getD_eq_getElem?_getD,
      hs]
  obtain ⟨h1, h2⟩ := hw.put hfit hoff hsound hlook
  refine ⟨by simp [PrivateHeap.withPages, PrivateHeap.newFrame], rfl, fun s' hs' => ?_, ?_, ?_⟩
  · simp [PrivateHeap.set, PrivateHeap.withPages, PrivateHeap.newFrame,
      List.getD_eq_getElem?_getD, Ne.symm hs']
  · rw [hset]
    exact h1
  · rw [hset]
    exact h2

lemma installIfAbsent_cases (frame : PrivateFrame) :
    PutsOr heap s n off frame (heap.installIfAbsent s off frame) := by
  unfold PrivateHeap.installIfAbsent
  rcases hi : (heap.set s).pages.insertIfAbsent ((heap.set s).keyFor off) heap.frames.length with
    existing | pages
  · exact .inr ⟨rfl, rfl⟩
  obtain ⟨-, h1, h2⟩ := PrivatePageTree.insertIfAbsent_ok hw.sound hi
  exact .inl ⟨rfl, puts_withPages hs hw hfit hoff h1 h2⟩

lemma replaceIfMatch_cases (expected : PrivateFrameIdentity) (frame : PrivateFrame) :
    PutsOr heap s n off frame (heap.replaceIfMatch s off expected frame) := by
  unfold PrivateHeap.replaceIfMatch
  rcases he : heap.expectMatch s off expected with err | existing
  · exact .inr ⟨rfl, rfl⟩
  have hfound : (heap.set s).pages.lookup ((heap.set s).keyFor off) ≠ none := by
    intro hc
    have hl : heap.lookupFrame s off = none := hc
    unfold PrivateHeap.expectMatch at he
    rw [hl] at he
    cases he
  obtain ⟨h1, h2⟩ := hw.sound.replaceExact hfound heap.frames.length
  exact .inl ⟨rfl, puts_withPages hs hw hfit hoff h1 h2⟩

end

/-! ### Soundness of the index -/

namespace RecipeIndex

/-- The entries `L` of the index own different sets, each with pages of its entry only. -/
structure Sound (x : RecipeIndex) (L : List VmEntry) : Prop where
  holds : x.current.Holds L
  nodup : (owned L).Nodup
  fits : ∀ e ∈ L, e.Fits x.heap

/-- The keys of all private pages of the index are in range. -/
def KeysFit (x : RecipeIndex) : Prop := ∀ e ∈ x.entries, e.KeysFit x.heap

instance (x : RecipeIndex) : Decidable x.KeysFit := by unfold KeysFit; infer_instance

variable {x : RecipeIndex} {L : List VmEntry}

lemma Sound.keyed (h : x.Sound L) (hk : x.KeysFit) : ∀ e ∈ L, e.Keyed x.heap := fun e he =>
  ⟨h.fits e he, hk e ((entries_eq h.holds).symm ▸ he)⟩

variable {rewrite : PrivateHeap → RecipeTree → Except VmMapError RecipeRewrite} {e : VmEntry}
  {a b addr : ℕ} {heap' : PrivateHeap} {range : UserRange} {frame : PrivateFrame}

lemma resolvePrivate_of_mem (h : x.current.Holds L) (he : e ∈ L) (ha : e.range.containsAddr a) :
    x.resolvePrivate a =
      e.owners.priv.map fun set => (set, (a - e.range.start) / userPageSize) := by
  have hlook : x.lookup a = some e := by
    rw [lookup, h.lookup_eq]
    exact (covering_eq_some h.chained).mpr ⟨he, ha⟩
  rw [resolvePrivate, hlook, Option.bind_some, pageOffsetOf, if_pos ha]
  rcases e.owners.priv with _ | set <;> rfl

lemma resolvePrivate_of_none (h : x.current.Holds L) (ha : ∀ e ∈ L, ¬ e.range.containsAddr a) :
    x.resolvePrivate a = none := by
  have hlook : x.lookup a = none := by
    rw [lookup, h.lookup_eq]
    exact covering_eq_none.mpr ha
  rw [resolvePrivate, hlook, Option.bind_none]

lemma privateFrame_eq (h : x.current.Holds L) : x.privateFrame = frames x.heap L := by
  funext a
  refine (frames_eq_of_mem h.chained (fun e he a ha => ?_) (fun a ha => ?_) a).symm
  · rw [privateFrame, resolvePrivate_of_mem h he ha, frameAt]
    rcases e.owners.priv with _ | set <;> rfl
  · rw [privateFrame, resolvePrivate_of_none h ha, Option.bind_none]

/-- **A rewrite keeps the index sound**, and its pages find the frames they continue. -/
lemma Sound.carries (h : x.Sound L) {tree : RecipeTree} {L' : List VmEntry} {origin : ℕ → Option ℕ}
    (hL' : tree.Holds L') (hc : Carries x.heap L heap' L' origin) :
    (⟨tree, heap'⟩ : RecipeIndex).Sound L' ∧
      (⟨tree, heap'⟩ : RecipeIndex).privateFrame = fun a => (origin a).bind x.privateFrame := by
  refine ⟨⟨hL', Multiset.nodup_of_le hc.owned_le ?_, hc.fits⟩, ?_⟩
  · refine Multiset.nodup_add.mpr ⟨h.nodup, Multiset.nodup_Ico, ?_⟩
    -- the sets there were come before the new ones
    refine Multiset.disjoint_left.mpr fun {s} hs hfresh => ?_
    obtain ⟨e, he, hes⟩ := List.mem_filterMap.mp (Multiset.mem_coe.mp hs)
    have h1 := (h.fits e he s hes).1
    have h2 := (Multiset.mem_Ico.mp hfresh).1
    omega
  · funext a
    rw [privateFrame_eq (x := ⟨tree, heap'⟩) hL', privateFrame_eq h.holds, hc.frames_eq]

lemma containsAddr_of_page (h : a / userPageSize = b / userPageSize) (hb : range.containsAddr b) :
    range.containsAddr a := by
  have h1 := range.start_aligned
  have h2 := range.stop_aligned
  unfold userPageSize at *
  exact ⟨by omega, by omega⟩

lemma page_eq_iff (ha : range.containsAddr a) (hb : range.containsAddr b) :
    a / userPageSize = b / userPageSize ↔
      (a - range.start) / userPageSize = (b - range.start) / userPageSize := by
  have h1 := range.start_aligned
  unfold userPageSize at *
  omega

/-- **A frame that is put** is found for its page, and all other pages keep theirs. -/
lemma Sound.puts (h : x.Sound L) (he : e ∈ L) {s : ℕ} (ha : e.range.containsAddr addr)
    (hs : e.owners.priv = some s)
    (hp : Puts x.heap s e.range.pageCount ((addr - e.range.start) / userPageSize) frame heap') :
    (⟨x.current, heap'⟩ : RecipeIndex).Sound L ∧
      (⟨x.current, heap'⟩ : RecipeIndex).privateFrame =
        InstalledFrames.install x.privateFrame addr frame := by
  have hlen : heap'.frames.length = x.heap.frames.length + 1 := by simp [hp.frames]
  have hframe : ∀ f, f < x.heap.frames.length → heap'.frame f = x.heap.frame f := fun f hf => by
    rw [PrivateHeap.frame, PrivateHeap.frame, hp.frames, List.getD_append _ _ _ _ hf]
  have hnew : heap'.frame x.heap.frames.length = frame := by
    simp [PrivateHeap.frame, hp.frames]
  -- what a set finds under one of the old frames stays
  have hsnap : ∀ {set : PrivatePageSet} {n off : ℕ}, set.Within n x.heap.frames.length →
      (set.lookup off).map (fun f => snapshotFromFrame (heap'.frame f)) =
        (set.lookup off).map fun f => snapshotFromFrame (x.heap.frame f) := fun hw =>
    Option.map_congr fun f hf => by rw [hframe f (hw.frame _ f hf)]
  refine ⟨⟨h.holds, h.nodup, fun b hb s' hs' => ?_⟩, ?_⟩
  · obtain ⟨h1, h2⟩ := h.fits b hb s' hs'
    refine ⟨hp.length ▸ h1, ?_⟩
    by_cases hss : s' = s
    · subst hss
      obtain rfl := eq_of_owned h.nodup hb he hs' hs
      exact hlen ▸ hp.within
    · rw [hp.other s' hss]
      exact h2.mono le_rfl (by show _ ≤ heap'.frames.length; omega)
  rw [privateFrame_eq (x := ⟨x.current, heap'⟩) h.holds]
  funext a
  refine frames_eq_of_mem h.holds.chained (fun b hb a hba => ?_) (fun a hno => ?_) a
  · rw [InstalledFrames.install, privateFrame_eq h.holds, frames_of_mem h.holds.chained hb hba]
    by_cases hbe : b = e
    · subst hbe
      have hoff : (a - b.range.start) / userPageSize < b.range.pageCount := by
        have h1 := b.range.start_aligned
        have h2 := b.range.stop_aligned
        unfold pageCount len userPageSize at *
        omega
      rw [frameAt_of_some hs, frameAt_of_some hs, hp.lookup _ hoff]
      simp only [page_eq_iff hba ha]
      split_ifs
      · rw [Option.map_some, hnew]
      · exact hsnap (h.fits b hb s hs).2
    · have hpage : a / userPageSize ≠ addr / userPageSize := fun hc =>
        hbe (h.holds.chained.eq_of_cover hb he hba (containsAddr_of_page hc ha))
      rw [if_neg hpage]
      rcases hbs : b.owners.priv with _ | s'
      · rw [frameAt_of_none hbs, frameAt_of_none hbs]
      have hss : s' ≠ s := fun hc =>
        hbe (eq_of_owned h.nodup hb he (hc ▸ hbs) hs)
      rw [frameAt_of_some hbs, frameAt_of_some hbs, hp.other s' hss]
      exact hsnap (h.fits b hb s' hbs).2
  · have hpage : a / userPageSize ≠ addr / userPageSize := fun hc =>
      hno e he (containsAddr_of_page hc ha)
    rw [InstalledFrames.install, if_neg hpage, privateFrame_eq h.holds, frames_of_none hno]

/-! ### One operation -/

/-- The result of an operation is sound; its frames are `g` if the operation succeeded, and those
of `x` if it failed. -/
def Follows (x : RecipeIndex) (r : RecipeIndex × Bool) (g : InstalledFrames) : Prop :=
  ∃ L', r.1.Sound L' ∧ r.1.privateFrame = if r.2 then g else x.privateFrame

lemma Sound.follows_refl (h : x.Sound L) (g : InstalledFrames) : Follows x (x, false) g :=
  ⟨L, h, rfl⟩

lemma Sound.follows_rewriteWith (h : x.Sound L) (alloc : Allocators) {g : InstalledFrames}
    (hok : ∀ r, rewrite x.heap x.current = .ok r → ∃ L' origin, r.tree.Holds L' ∧
      Carries x.heap L r.heap L' origin ∧ (fun a => (origin a).bind x.privateFrame) = g) :
    Follows x ((x.rewriteWith alloc rewrite).1, (x.rewriteWith alloc rewrite).2.isOk) g := by
  unfold rewriteWith
  rcases hr : rewrite x.heap x.current with err | r
  · exact h.follows_refl g
  obtain ⟨L', origin, hL', hc, rfl⟩ := hok r hr
  by_cases hpub : alloc.publish
  · simp only [hpub, if_true]
    obtain ⟨h1, h2⟩ := h.carries hL' hc
    exact ⟨L', h1, h2⟩
  · simp only [hpub, Bool.false_eq_true, if_false]
    exact h.follows_refl _

lemma clear_eq (g : InstalledFrames) (range : UserRange) :
    (fun a => Option.bind (if range.containsAddr a then none else some a) g) = g.clear range := by
  funext a
  rw [InstalledFrames.clear]
  split_ifs <;> rfl

lemma move_eq (g : InstalledFrames) (old new : UserRange) :
    (fun a => (movedFrom old new a).bind g) = g.move old new := by
  funext a
  rw [InstalledFrames.move, movedFrom]
  split_ifs <;> rfl

section

variable (h : x.Sound L) (hk : x.KeysFit) (alloc : Allocators)
include h hk

lemma Sound.follows_unmap (range : UserRange) :
    Follows x ((VmOp.unmap range).exec alloc x) (InstalledFrames.clear x.privateFrame range) := by
  refine h.follows_rewriteWith alloc fun r hr => ?_
  obtain ⟨rs, hth, hholds⟩ := h.holds.rewriteUnmap_ok hr
  exact ⟨_, _, hholds, carries_unmap h.holds.chained (h.keyed hk) hth, clear_eq _ _⟩

lemma Sound.follows_protect (range : UserRange) (prot : Prot) :
    Follows x ((VmOp.protect range prot).exec alloc x) x.privateFrame := by
  show Follows x ((x.protect alloc range prot).1, (x.protect alloc range prot).2.isOk) _
  unfold RecipeIndex.protect
  split
  · exact h.follows_refl _
  · exact ⟨L, h, by simp⟩
  refine h.follows_rewriteWith alloc fun r hr => ?_
  obtain ⟨-, rs, hth, hholds⟩ := h.holds.rewriteProtect_ok hr
  exact ⟨_, _, hholds, carries_cut h.holds.chained (h.keyed hk) hth, by simp⟩

lemma Sound.follows_remap (old new : UserRange) (placement : VmRemapPlacement)
    (destination : MapPlacement) :
    Follows x ((VmOp.remap old new placement destination).exec alloc x)
      (InstalledFrames.move x.privateFrame old new) := by
  refine h.follows_rewriteWith alloc fun r hr => ?_
  cases placement with
  | move =>
    obtain ⟨-, ⟨hmap, -⟩, source, heap1, moved, grown, kept, hmoved⟩ :=
      h.holds.rewriteRemapDisjoint_ok hr
    obtain ⟨L', hL', hc⟩ := carries_move h.holds.chained (h.keyed hk) hmap hmoved
    exact ⟨L', _, hL', hc, move_eq _ _ _⟩
  | inPlace =>
    obtain ⟨L', hL', hc⟩ := carries_inPlace h.holds (h.keyed hk) hr
    exact ⟨L', _, hL', hc, move_eq _ _ _⟩

end

lemma newcomer_of_attachPrivate {zone : ℕ → Bool} {heap heap1 : PrivateHeap} {entry q : VmEntry}
    (hnone : entry.owners.priv = none)
    (h : attachPrivate zone heap entry = .ok (heap1, q)) :
    q.range = entry.range ∧ Newcomer heap heap1 q := by
  unfold attachPrivate at h
  split_ifs at h
  · split at h
    · cases h
    rename_i heap2 set hset
    cases h
    obtain ⟨rfl, rfl⟩ := PrivateHeap.newCapWith_ok hset
    have hq : (entry.withPrivate (some heap.sets.length)).owners.priv = some heap.sets.length := rfl
    have hcount := (entry.withPrivate (some heap.sets.length)).pageCount_lt
    refine ⟨rfl, heap.grows_newSet _, ?_, (keyed_newSet hq PrivatePageSet.within_new
      (by show 0 + _ < _; omega)).fits, fun a => ?_⟩
    · simp [owned_singleton, hq, PrivateHeap.newSet]
    · rw [frameAt_of_some hq, PrivateHeap.set_newSet, PrivatePageSet.lookup_new, Option.map_none]
  · cases h
    refine ⟨rfl, .refl _, by simp [owned_singleton, hnone], fits_of_none hnone,
      frameAt_of_none hnone⟩

lemma rewriteWith_ok {alloc : Allocators} {y : RecipeIndex} {commit : VmMapCommit}
    (h : x.rewriteWith alloc rewrite = (y, .ok commit)) :
    ∃ r, rewrite x.heap x.current = .ok r ∧ y = ⟨r.tree, r.heap⟩ := by
  unfold rewriteWith at h
  split at h
  · cases h
  rename_i r hr
  split_ifs at h
  · cases h
    exact ⟨r, hr, rfl⟩
  · cases h

lemma Sound.follows_map (h : x.Sound L) (hk : x.KeysFit) (alloc : Allocators) (range : UserRange)
    (prot : Prot) (flags : VmEntryFlags) (backing : VmBacking) (placement : MapPlacement) :
    Follows x ((VmOp.map range prot flags backing placement).exec alloc x)
      (InstalledFrames.clear x.privateFrame range) := by
  have ⟨hrange, hnone⟩ : (VmEntry.new range prot flags backing).range = range ∧
      (VmEntry.new range prot flags backing).owners.priv = none := by
    cases backing <;> exact ⟨rfl, rfl⟩
  show Follows x ((x.mapEntry alloc _ placement).1, (x.mapEntry alloc _ placement).2.isOk) _
  unfold mapEntry
  rcases ha : attachPrivate alloc.zone x.heap (.new range prot flags backing) with
    err | ⟨heap1, q⟩
  · exact h.follows_refl _
  obtain ⟨hq, hnew⟩ := newcomer_of_attachPrivate hnone ha
  rw [hrange] at hq
  dsimp only
  -- both ways to place the mapping carry the frames outside its range
  have hplaced : ∀ y commit, commitMap alloc ⟨x.current, heap1⟩ q placement = (y, .ok commit) →
      Follows x (y, true) (InstalledFrames.clear x.privateFrame range) := by
    intro y commit hy
    unfold commitMap at hy
    cases placement with
    | requireFree =>
      obtain ⟨r, hr, rfl⟩ := rewriteWith_ok hy
      obtain ⟨hheap, L', hL', hc⟩ := carries_mapFree h.holds (h.keyed hk) hnew hr
      rw [← hheap] at hc
      obtain ⟨h1, h2⟩ := h.carries hL' hc
      exact ⟨L', h1, h2.trans (by rw [clear_eq, hq]; rfl)⟩
    | fixedReplace =>
      obtain ⟨r, hr, rfl⟩ := rewriteWith_ok hy
      obtain ⟨rs, hth, hholds⟩ := h.holds.rewriteFixed_ok hr
      have hc := carries_mapFixed h.holds.chained (h.keyed hk) hnew hth
      obtain ⟨h1, h2⟩ := h.carries hholds hc
      exact ⟨_, h1, h2.trans (by rw [clear_eq, hq]; rfl)⟩
  split
  · exact h.follows_refl _
  rename_i y commit hy
  exact hplaced y commit hy

lemma resolvePrivate_eq_some (h : x.current.Holds L) {set off : ℕ}
    (hr : x.resolvePrivate addr = some (set, off)) :
    ∃ e ∈ L, e.range.containsAddr addr ∧ e.owners.priv = some set ∧
      off = (addr - e.range.start) / userPageSize ∧ off < e.range.pageCount := by
  rcases hc : covering L addr with _ | e
  · rw [resolvePrivate_of_none h (covering_eq_none.mp hc)] at hr
    cases hr
  obtain ⟨he, ha⟩ := (covering_eq_some h.chained).mp hc
  rw [resolvePrivate_of_mem h he ha, Option.map_eq_some_iff] at hr
  obtain ⟨s, hs, hso⟩ := hr
  obtain ⟨rfl, rfl⟩ := Prod.mk.inj hso
  refine ⟨e, he, ha, hs, rfl, ?_⟩
  have h1 := e.range.start_aligned
  have h2 := e.range.stop_aligned
  have h3 : e.range.start ≤ addr := ha.1
  have h4 : addr < e.range.stop := ha.2
  unfold pageCount len userPageSize at *
  omega

lemma Sound.follows_fault (h : x.Sound L) (hk : x.KeysFit) (addr : ℕ)
    {act : ℕ → ℕ → PrivateHeap × Except PrivatePageError PrivateFrameSnapshot}
    (hact : ∀ {s n off}, s < x.heap.sets.length → (x.heap.set s).Within n x.heap.frames.length →
      (x.heap.set s).keyBase + n < 2 ^ 64 → off < n → PutsOr x.heap s n off frame (act s off)) :
    Follows x (match x.resolvePrivate addr with
      | none => (x, false)
      | some (set, off) => (⟨x.current, (act set off).1⟩, (act set off).2.isOk))
      (InstalledFrames.install x.privateFrame addr frame) := by
  rcases hr : x.resolvePrivate addr with _ | ⟨set, off⟩
  · exact h.follows_refl _
  obtain ⟨e, he, ha, hs, rfl, hlt⟩ := resolvePrivate_eq_some h.holds hr
  have hkey := h.keyed hk e he
  rcases hact (hkey.fits set hs).1 (hkey.fits set hs).2 (hkey.keysFit set hs) hlt with
    ⟨hok, hp⟩ | ⟨hok, heq⟩
  · simp only [hok]
    obtain ⟨h1, h2⟩ := h.puts he ha hs hp
    exact ⟨L, h1, h2⟩
  · simp only [hok, heq]
    exact h.follows_refl _

lemma Sound.follows (h : x.Sound L) (hk : x.KeysFit) (op : VmOp) (alloc : Allocators) :
    Follows x (op.exec alloc x) (op.onFrames x.privateFrame) := by
  cases op with
  | map range prot flags backing placement => exact h.follows_map hk ..
  | unmap range => exact h.follows_unmap hk ..
  | protect range prot => exact h.follows_protect hk ..
  | remap old new placement destination => exact h.follows_remap hk ..
  | install addr frame =>
    exact h.follows_fault hk addr fun hs hw hf ho => installIfAbsent_cases hs hw hf ho frame
  | replace addr expected frame =>
    exact h.follows_fault hk addr fun hs hw hf ho => replaceIfMatch_cases hs hw hf ho expected frame

/-! ### Runs -/

lemma sound_new : new.Sound [] :=
  ⟨RecipeTree.holds_new, by simp, by simp⟩

/-- The index is sound, and a fault finds the frames last installed. -/
def Agrees (s : RecipeIndex × InstalledFrames) : Prop :=
  (∃ L, s.1.Sound L) ∧ s.1.privateFrame = s.2

lemma Agrees.step {s : RecipeIndex × InstalledFrames} (h : Agrees s) (hk : s.1.KeysFit)
    (i : VmOp × Allocators) : Agrees (VmOp.step s i).1 := by
  obtain ⟨⟨L, hL⟩, heq⟩ := h
  obtain ⟨L', hL', hframes⟩ := hL.follows hk i.1 i.2
  refine ⟨⟨L', hL'⟩, ?_⟩
  show (i.1.exec i.2 s.1).1.privateFrame =
    if (i.1.exec i.2 s.1).2 then i.1.onFrames s.2 else s.2
  rw [hframes, heq]

lemma onFrames_of_maps {op : VmOp} (h : op.Maps a) (g : InstalledFrames) :
    op.onFrames g a = none := by
  cases op with
  | map range prot flags backing placement => exact if_pos h
  | remap old new placement destination =>
    obtain ⟨h1, h2⟩ := h
    show InstalledFrames.move g old new a = none
    rw [InstalledFrames.move, if_pos h1, if_neg (by omega)]
  | unmap range | protect range prot | install addr frame | replace addr expected frame =>
    exact h.elim

/-- **Private frames follow the installs.** In every run that keeps the keys of the private sets in
range, the sets hold pages of their entries only, and a fault finds the frame last installed for its
page since the page was mapped. -/
theorem private_frames_follow_installs (ops : List (VmOp × Allocators))
    (hops : Allowed VmOp.step (fun s _ => s.1.KeysFit) (new, fun _ => none) ops) :
    let s := (runSpec VmOp.step (new, fun _ => none) ops).1
    (∀ e ∈ s.1.entries, ∀ set, e.owners.priv = some set → ∀ off, off < 2 ^ 64 →
      s.1.heap.lookup set off ≠ none → off < e.range.pageCount) ∧
    (∀ a, s.1.privateFrame a = s.2 a) ∧
    ∀ op alloc, s.1.KeysFit → (VmOp.exec alloc s.1 op).2 = true → ∀ a, op.Maps a →
      (VmOp.exec alloc s.1 op).1.privateFrame a = none := by
  have hnew : Agrees (new, fun _ => none) :=
    ⟨⟨[], sound_new⟩, by rw [privateFrame_eq RecipeTree.holds_new]; rfl⟩
  obtain ⟨⟨L, hL⟩, heq⟩ := invariant Agrees (fun s i hs hk => hs.step hk i) ops hnew hops
  refine ⟨fun e he set hs off hoff hl => ?_, congrFun heq, fun op alloc hk hok a ha => ?_⟩
  · rw [entries_eq hL.holds] at he
    by_contra hc
    have hnone := (hL.fits e he set hs).2.lookup_beyond (not_lt.mp hc) hoff
    exact hl (by rw [PrivateHeap.lookup, PrivateHeap.lookupFrame, hnone, Option.map_none])
  · obtain ⟨L', -, hframes⟩ := hL.follows hk op alloc
    rw [hframes, hok, if_pos rfl, onFrames_of_maps ha]

/-- Two private mappings that become one, writes to two pages of it, its first page unmapped, and
the second moved to a longer range. -/
def mergeSplitMove : List (VmOp × Allocators) :=
  [.map (.pages 32 2 (by decide)) ⟨true, true, false⟩ ⟨false, false, false⟩ .privateAnon
      .requireFree,
    .map (.pages 34 1 (by decide)) ⟨true, true, false⟩ ⟨false, false, false⟩ .privateAnon
      .requireFree,
    .install 0x21008 ⟨7, .exclusive⟩, .install 0x22010 ⟨8, .exclusive⟩,
    .unmap (.pages 32 1 (by decide)),
    .remap (.pages 33 1 (by decide)) (.pages 48 2 (by decide)) .move .requireFree].map
      fun op => (op, granting)

theorem private_frames_after_merge_split_move :
    Allowed VmOp.step (fun s _ => s.1.KeysFit) (new, fun _ => none) mergeSplitMove ∧
      (runSpec VmOp.step (new, fun _ => none) mergeSplitMove).2 = List.replicate 6 true ∧
      [0x21008, 0x22010, 0x30ff0, 0x31000].map
          (runSpec VmOp.step (new, fun _ => none) mergeSplitMove).1.1.privateFrame =
        [none, some ⟨8, .exclusive⟩, some ⟨7, .exclusive⟩, none] := by
  have hfit : Allowed VmOp.step (fun s _ => s.1.KeysFit) (new, fun _ => none) mergeSplitMove := by
    decide +kernel
  refine ⟨hfit, by decide +kernel, ?_⟩
  rw [funext (private_frames_follow_installs _ hfit).2.1]
  decide +kernel

end RecipeIndex

end TxKernel.Vm
