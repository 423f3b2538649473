import TxKernel.Vm.PrivateSets
import TxKernel.Library.Runs

/-!
Copy-on-write isolation between the sets of a family. A frame's state is stored in the frame, and
which frame an offset has in the set: a demotion reaches all relatives and a replacement none. A
frame which two sets hold is `SharedCow`.
-/

namespace TxKernel.Vm

open TxKernel.Treap List PrivatePageTree Runs

namespace PrivateHeap

/-- Some offset of the set has the frame. -/
def Holds (h : PrivateHeap) (s f : ℕ) : Prop := ∃ k, (h.set s).pages.lookup k = some f

variable {h h' h'' : PrivateHeap} {s t f : ℕ}

lemma holds_of_lookupFrame {off : ℕ} (hl : h.lookupFrame s off = some f) : h.Holds s f := ⟨_, hl⟩

/-! ### Demotions -/

/-- Frames may have become `SharedCow`; nothing else is different. -/
structure Demoted (h h' : PrivateHeap) : Prop where
  sets : h'.sets = h.sets
  length : h'.frames.length = h.frames.length
  ppn : ∀ f, (h'.frame f).ppn = (h.frame f).ppn
  state : ∀ f, (h'.frame f).state = (h.frame f).state ∨ (h'.frame f).state = .sharedCow

namespace Demoted

lemma refl (h : PrivateHeap) : Demoted h h := ⟨rfl, rfl, fun _ => rfl, fun _ => .inl rfl⟩

lemma trans (h1 : Demoted h h') (h2 : Demoted h' h'') : Demoted h h'' where
  sets := h2.sets.trans h1.sets
  length := h2.length.trans h1.length
  ppn f := (h2.ppn f).trans (h1.ppn f)
  state f := by
    rcases h2.state f with e | e
    · rw [e]
      exact h1.state f
    · exact .inr e

lemma set_eq (hd : Demoted h h') (s : ℕ) : h'.set s = h.set s := by rw [set, set, hd.sets]

lemma holds (hd : Demoted h h') : h'.Holds s f ↔ h.Holds s f := by rw [Holds, Holds, hd.set_eq]

lemma shared (hd : Demoted h h') (hf : (h.frame f).state = .sharedCow) :
    (h'.frame f).state = .sharedCow := by
  rcases hd.state f with e | e
  · rw [e, hf]
  · exact e

end Demoted

lemma frame_setState (hf : f < h.frames.length) (state : PrivateFrameState) (g : ℕ) :
    (h.setState f state).frame g =
      if g = f then { h.frame f with state := state } else h.frame g := by
  rw [frame, setState, getD_eq_getElem?_getD, getElem?_set]
  rcases eq_or_ne g f with rfl | hne
  · simp [hf]
  · simp [hne, hne.symm, frame]

lemma demoted_setState (hf : f < h.frames.length) : Demoted h (h.setState f .sharedCow) where
  sets := rfl
  length := by simp [setState]
  ppn g := by
    rw [frame_setState hf]
    split_ifs with e
    · rw [e]
    · rfl
  state g := by
    rw [frame_setState hf]
    split_ifs
    · exact .inr rfl
    · exact .inl rfl

/-- Walking a tree demotes frames, among them all frames of the tree. -/
lemma demoted_setTreeFramesShared (root : PrivatePageNode)
    (hroot : ∀ a ∈ root.toList, a.2 < h.frames.length) :
    Demoted h (h.setTreeFramesShared root) ∧
      ∀ a ∈ root.toList, ((h.setTreeFramesShared root).frame a.2).state = .sharedCow := by
  induction root generalizing h with
  | nil => exact ⟨.refl h, by simp⟩
  | node k p f l r c ihl ihr =>
    simp only [Tree.toList, mem_append, mem_cons] at hroot ⊢
    obtain ⟨dl, sl⟩ := ihl fun a ha => hroot a (.inl ha)
    have hf : f < (h.setTreeFramesShared l).frames.length := by
      rw [dl.length]
      exact hroot (k, f) (.inr (.inl rfl))
    have df := demoted_setState hf
    have dlf := dl.trans df
    obtain ⟨dr, sr⟩ := ihr (h := (h.setTreeFramesShared l).setState f .sharedCow) fun a ha => by
      rw [dlf.length]
      exact hroot a (.inr (.inr ha))
    refine ⟨dlf.trans dr, ?_⟩
    rintro a (ha | rfl | ha)
    · exact dr.shared (df.shared (sl a ha))
    · refine dr.shared ?_
      rw [frame_setState hf, if_pos rfl]
    · exact sr a ha

/-! ### New pages for one set -/

lemma frame_newFrame (hf : f < h.frames.length) (new : PrivateFrame) :
    (h.newFrame new).frame f = h.frame f := by
  rw [frame, newFrame, getD_eq_getElem?_getD, getElem?_append_left hf, frame, getD_eq_getElem?_getD]

lemma set_withPages (pages : PrivatePageTree) (t : ℕ) :
    (h.withPages s pages).set t =
      if t = s ∧ s < h.sets.length then { h.set s with pages := pages } else h.set t := by
  rw [set, withPages, getD_eq_getElem?_getD, getElem?_set]
  rcases eq_or_ne t s with rfl | hne
  · by_cases ht : t < h.sets.length
    · simp [ht]
    · simp [ht, set]
  · simp [hne, hne.symm, set]

lemma set_newSet_ite (p : PrivatePageSet) (t : ℕ) :
    (h.newSet p).set t = if t = h.sets.length then p else h.set t := by
  rw [set, newSet, getD_eq_getElem?_getD]
  rcases lt_trichotomy t h.sets.length with ht | rfl | ht
  · rw [getElem?_append_left ht, if_neg ht.ne, set, getD_eq_getElem?_getD]
  · simp
  rw [getElem?_eq_none (by simp; omega), if_neg ht.ne', set, getD_eq_getElem?_getD,
    getElem?_eq_none (by omega)]

/-! ### The invariant -/

/-- Every tree is sound and refers to frames of the heap, and the frames two sets hold are
`SharedCow`. -/
structure Isolated (h : PrivateHeap) : Prop where
  sound : ∀ s, (h.set s).pages.Sound
  alloc : ∀ s f, h.Holds s f → f < h.frames.length
  shared : ∀ s t f, s ≠ t → h.Holds s f → h.Holds t f → (h.frame f).state = .sharedCow

namespace Isolated

lemma demoted (hi : h.Isolated) (hd : Demoted h h') : h'.Isolated where
  sound s := by
    rw [hd.set_eq]
    exact hi.sound s
  alloc s f hf := by
    rw [hd.length]
    exact hi.alloc s f (hd.holds.mp hf)
  shared s t f hst hs ht := hd.shared (hi.shared s t f hst (hd.holds.mp hs) (hd.holds.mp ht))

lemma newFrame (hi : h.Isolated) (new : PrivateFrame) : (h.newFrame new).Isolated where
  sound := hi.sound
  alloc s f hf := by
    have := hi.alloc s f hf
    rw [PrivateHeap.newFrame, length_append]
    omega
  shared s t f hst hs ht := by
    rw [frame_newFrame (hi.alloc s f hs)]
    exact hi.shared s t f hst hs ht

lemma withPages (hi : h.Isolated) {pages : PrivatePageTree} (hp : pages.Sound)
    (hk : ∀ k f, pages.lookup k = some f →
      f < h.frames.length ∧ (h.Holds s f ∨ ∀ t, ¬ h.Holds t f)) :
    (h.withPages s pages).Isolated := by
  -- a set of the new heap holds what it held, except that `s` may hold fresh frames
  have hold : ∀ t f, (h.withPages s pages).Holds t f →
      f < h.frames.length ∧ (h.Holds t f ∨ t = s ∧ ∀ u, ¬ h.Holds u f) := by
    rintro t f ⟨k, hf⟩
    rw [set_withPages] at hf
    split_ifs at hf with hts
    · obtain ⟨hlt, hf | hf⟩ := hk k f hf
      · exact ⟨hlt, .inl (hts.1 ▸ hf)⟩
      · exact ⟨hlt, .inr ⟨hts.1, hf⟩⟩
    · exact ⟨hi.alloc t f ⟨k, hf⟩, .inl ⟨k, hf⟩⟩
  refine ⟨fun t => ?_, fun t f hf => (hold t f hf).1, fun t u f htu ht hu => ?_⟩
  · rw [set_withPages]
    split_ifs
    · exact hp
    · exact hi.sound t
  rcases (hold t f ht).2 with ht' | ⟨ht', hfresh⟩
  · rcases (hold u f hu).2 with hu' | ⟨-, hfresh⟩
    · exact hi.shared t u f htu ht' hu'
    · exact absurd ht' (hfresh t)
  · rcases (hold u f hu).2 with hu' | ⟨hu', -⟩
    · exact absurd hu' (hfresh u)
    · exact absurd (ht'.trans hu'.symm) htu

lemma newSet (hi : h.Isolated) (hs : ∀ f, h.Holds s f → (h.frame f).state = .sharedCow) :
    (h.newSet (h.set s)).Isolated := by
  have hold : ∀ t f, (h.newSet (h.set s)).Holds t f →
      h.Holds t f ∨ t = h.sets.length ∧ h.Holds s f := by
    rintro t f ⟨k, hf⟩
    rw [set_newSet_ite] at hf
    split_ifs at hf with ht
    · exact .inr ⟨ht, k, hf⟩
    · exact .inl ⟨k, hf⟩
  refine ⟨fun t => ?_, fun t f hf => ?_, fun t u f htu ht hu => ?_⟩
  · rw [set_newSet_ite]
    split_ifs
    · exact hi.sound s
    · exact hi.sound t
  · rcases hold t f hf with hf | ⟨-, hf⟩
    · exact hi.alloc t f hf
    · exact hi.alloc s f hf
  show (h.frame f).state = .sharedCow
  rcases hold t f ht with ht' | ⟨-, hf⟩
  · rcases hold u f hu with hu' | ⟨-, hf⟩
    · exact hi.shared t u f htu ht' hu'
    · exact hs f hf
  · exact hs f hf

end Isolated

/-! ### What another set sees -/

/-- Set `t` has its tree, and the frames of `h` have their pages. -/
structure Unseen (h h' : PrivateHeap) (t : ℕ) : Prop where
  set : h'.set t = h.set t
  ppn : ∀ f < h.frames.length, (h'.frame f).ppn = (h.frame f).ppn

lemma Unseen.lookup (hu : Unseen h h' t) (hi : h.Isolated) (off : ℕ) :
    (h'.lookup t off).map (·.ppn) = (h.lookup t off).map (·.ppn) := by
  have hl : h'.lookupFrame t off = h.lookupFrame t off := by
    rw [lookupFrame, lookupFrame, hu.set]
  rw [PrivateHeap.lookup, PrivateHeap.lookup, hl, Option.map_map, Option.map_map]
  rcases hf : h.lookupFrame t off with _ | f
  · rfl
  · exact congrArg some (hu.ppn f (hi.alloc t f (holds_of_lookupFrame hf)))

lemma Unseen.refl (h : PrivateHeap) (t : ℕ) : Unseen h h t := ⟨rfl, fun _ _ => rfl⟩

lemma Demoted.unseen (hd : Demoted h h') (t : ℕ) : Unseen h h' t :=
  ⟨hd.set_eq t, fun f _ => hd.ppn f⟩

lemma unseen_withPages (hts : t ≠ s) (pages : PrivatePageTree) : Unseen h (h.withPages s pages) t :=
  ⟨by rw [set_withPages, if_neg fun e => hts e.1], fun _ _ => rfl⟩

/-- The sets stay isolated, and the others do not see what is done to `s`. -/
def Confined (h h' : PrivateHeap) (s : ℕ) : Prop :=
  h'.Isolated ∧ ∀ t < h.sets.length, t ≠ s → Unseen h h' t

end PrivateHeap

/-! ### Runs of set operations -/

/-- An operation on one set of a family. `zone` says which reservations of a set succeed. -/
inductive SetOp where
  | forkShare (zone : ℕ → Bool) (s : ℕ)
  | installIfAbsent (s off : ℕ) (frame : PrivateFrame)
  | replaceIfMatch (s off : ℕ) (expected : PrivateFrameIdentity) (new : PrivateFrame)
  | takeIfMatch (s off : ℕ) (expected : PrivateFrameIdentity)
  | demoteIfMatch (s off : ℕ) (expected : PrivateFrameIdentity)
  | drainRange (s start stop : ℕ)

namespace SetOp

def target : SetOp → ℕ
  | forkShare _ s | installIfAbsent s _ _ | replaceIfMatch s _ _ _ | takeIfMatch s _ _
  | demoteIfMatch s _ _ | drainRange s _ _ => s

def exec (h : PrivateHeap) : SetOp → PrivateHeap
  | forkShare zone s => (h.forkShare zone s).1
  | installIfAbsent s off frame => (h.installIfAbsent s off frame).1
  | replaceIfMatch s off expected new => (h.replaceIfMatch s off expected new).1
  | takeIfMatch s off expected => (h.takeIfMatch s off expected).1
  | demoteIfMatch s off expected => (h.demoteIfMatch s off expected).1
  | drainRange s start stop => h.drainRange s start stop

def step (h : PrivateHeap) (op : SetOp) : PrivateHeap × Unit := (op.exec h, ())

end SetOp

namespace PrivateHeap

variable {h h' : PrivateHeap} {s off f : ℕ} {expected : PrivateFrameIdentity}

structure Alone (h : PrivateHeap) : Prop where
  one : h.sets.length = 1
  sound : (h.set 0).pages.Sound
  alloc : ∀ f, h.Holds 0 f → f < h.frames.length

lemma Alone.isolated (ha : h.Alone) : h.Isolated := by
  have hnew : ∀ s, s ≠ 0 → h.set s = .new := fun s hs => by
    rw [set, getD_eq_getElem?_getD, getElem?_eq_none (by have := ha.one; omega)]
    rfl
  have hzero : ∀ s f, h.Holds s f → s = 0 := by
    rintro s f ⟨k, hf⟩
    by_contra hs
    rw [hnew s hs] at hf
    cases hf
  refine ⟨fun s => ?_, fun s f hf => ?_, fun s t f hst hs ht => ?_⟩
  · rcases eq_or_ne s 0 with rfl | hs
    · exact ha.sound
    rw [hnew s hs]
    exact sound_default
  · obtain rfl := hzero s f hf
    exact ha.alloc f hf
  · exact absurd ((hzero s f hs).trans (hzero t f ht).symm) hst

lemma expectMatch_ok (he : h.expectMatch s off expected = .ok f) :
    h.lookupFrame s off = some f := by
  unfold expectMatch at he
  rcases hl : h.lookupFrame s off with _ | g
  · rw [hl] at he
    cases he
  rw [hl] at he
  simp only at he
  split_ifs at he
  cases he
  rfl

namespace Isolated

section

variable (hi : h.Isolated) {pages : PrivatePageTree}
include hi

lemma confined_refl (s : ℕ) : Confined h h s := ⟨hi, fun t _ _ => .refl h t⟩

lemma confined_withPages {P : ℕ → Prop} [DecidablePred P] (hp : pages.Sound)
    (hl : ∀ k, pages.lookup k = if P k then none else (h.set s).pages.lookup k) :
    Confined h (h.withPages s pages) s := by
  refine ⟨hi.withPages hp fun k f hf => ?_, fun t _ hts => unseen_withPages hts _⟩
  rw [hl] at hf
  split_ifs at hf
  exact ⟨hi.alloc s f ⟨k, hf⟩, .inl ⟨k, hf⟩⟩

lemma confined_newFrame (new : PrivateFrame) {key : ℕ} (hp : pages.Sound)
    (hl : ∀ k, pages.lookup k =
      if k = key then some h.frames.length else (h.set s).pages.lookup k) :
    Confined h ((h.newFrame new).withPages s pages) s := by
  refine ⟨(hi.newFrame new).withPages hp fun k f hf => ?_, fun t _ hts =>
    ⟨(unseen_withPages (h := h.newFrame new) hts pages).set, fun f hf => ?_⟩⟩
  · rw [PrivateHeap.newFrame, length_append, length_singleton]
    rw [hl] at hf
    split_ifs at hf
    · cases hf
      exact ⟨by omega, .inr fun t ht => (hi.alloc t _ ht).false⟩
    · have := hi.alloc s f ⟨k, hf⟩
      exact ⟨by omega, .inl ⟨k, hf⟩⟩
  · show ((h.newFrame new).frame f).ppn = _
    rw [frame_newFrame hf]

lemma forkShare (zone : ℕ → Bool) (s : ℕ) : Confined h (h.forkShare zone s).1 s := by
  have hmem : ∀ a, a ∈ (h.set s).pages.root.toList ↔ (h.set s).pages.lookup a.1 = some a.2 :=
    fun a => (Tree.find_eq_some a.1 _ (hi.sound s).ordered a.2).symm
  obtain ⟨hd, hs⟩ := demoted_setTreeFramesShared (h := h) (h.set s).pages.root fun a ha =>
    hi.alloc s a.2 ⟨a.1, (hmem a).mp ha⟩
  simp only [PrivateHeap.forkShare, newCapWith]
  by_cases hz : zone (h.setTreeFramesShared (h.set s).pages.root).sets.length
  · rw [if_pos hz]
    refine ⟨?_, fun t ht _ => ⟨?_, fun f _ => hd.ppn f⟩⟩
    · have hsib := (hi.demoted hd).newSet (s := s) fun f hf => by
        obtain ⟨k, hf⟩ := hd.holds.mp hf
        exact hs (k, f) ((hmem (k, f)).mpr hf)
      rw [hd.set_eq s] at hsib
      exact hsib
    · rw [set_newSet_ite, hd.sets, if_neg ht.ne, hd.set_eq]
  · rw [if_neg hz]
    exact ⟨hi.demoted hd, fun t _ _ => hd.unseen t⟩

lemma installIfAbsent (s off : ℕ) (new : PrivateFrame) :
    Confined h (h.installIfAbsent s off new).1 s := by
  unfold PrivateHeap.installIfAbsent
  rcases ht : (h.set s).pages.insertIfAbsent ((h.set s).keyFor off) h.frames.length with e | pages
  · exact hi.confined_refl s
  obtain ⟨-, hp, hl⟩ := insertIfAbsent_ok (hi.sound s) ht
  exact hi.confined_newFrame new hp hl

section

variable (s off : ℕ) (expected : PrivateFrameIdentity)

lemma replaceIfMatch (new : PrivateFrame) :
    Confined h (h.replaceIfMatch s off expected new).1 s := by
  unfold PrivateHeap.replaceIfMatch
  rcases he : h.expectMatch s off expected with e | f
  · exact hi.confined_refl s
  obtain ⟨hp, hl⟩ := (hi.sound s).replaceExact (Option.ne_none_iff_exists'.mpr
    ⟨f, expectMatch_ok he⟩) h.frames.length
  exact hi.confined_newFrame new hp hl

lemma takeIfMatch : Confined h (h.takeIfMatch s off expected).1 s := by
  unfold PrivateHeap.takeIfMatch
  rcases he : h.expectMatch s off expected with e | f
  · exact hi.confined_refl s
  obtain ⟨hp, hl⟩ := (hi.sound s).removeIfMatch
    (Option.ne_none_iff_exists'.mpr ⟨f, expectMatch_ok he⟩)
  exact hi.confined_withPages hp hl

lemma demoteIfMatch : Confined h (h.demoteIfMatch s off expected).1 s := by
  unfold PrivateHeap.demoteIfMatch
  rcases he : h.expectMatch s off expected with e | f
  · exact hi.confined_refl s
  have hd := demoted_setState (hi.alloc s f (holds_of_lookupFrame (expectMatch_ok he)))
  exact ⟨hi.demoted hd, fun t _ _ => hd.unseen t⟩

end

lemma exec (op : SetOp) : Confined h (op.exec h) op.target := by
  cases op with
  | forkShare zone s => exact hi.forkShare zone s
  | installIfAbsent s off new => exact hi.installIfAbsent s off new
  | replaceIfMatch s off e new => exact hi.replaceIfMatch s off e new
  | takeIfMatch s off e => exact hi.takeIfMatch s off e
  | demoteIfMatch s off e => exact hi.demoteIfMatch s off e
  | drainRange s start stop =>
    obtain ⟨hp, hl⟩ := (hi.sound s).drainRange ((h.set s).keyFor start) ((h.set s).keyFor stop)
    exact hi.confined_withPages hp hl

lemma run (ops : List SetOp) : (runSpec SetOp.step h ops).1.Isolated := by
  induction ops generalizing h with
  | nil => exact hi
  | cons op ops ih => exact ih (hi.exec op).1

end

end Isolated

/-- **Isolation**: after any run on the sets that descend from one set, a frame found in two sets is
`SharedCow`, a set alone holds its `Exclusive` frames, and an operation on one set does not change
which page any other set has under any offset. -/
theorem cow_family_isolated (ha : h.Alone) (ops : List SetOp) :
    let g := (runSpec SetOp.step h ops).1
    (∀ s t off off' f, s ≠ t → g.lookupFrame s off = some f → g.lookupFrame t off' = some f →
      g.lookup s off = some ⟨(g.frame f).ppn, .sharedCow⟩ ∧
        g.lookup t off' = some ⟨(g.frame f).ppn, .sharedCow⟩) ∧
    (∀ s t off off' f, g.lookupFrame s off = some f → (g.frame f).state = .exclusive →
      g.lookupFrame t off' = some f → t = s) ∧
    ∀ (op : SetOp) (t off : ℕ), t < g.sets.length → t ≠ op.target →
      ((op.exec g).lookup t off).map (·.ppn) = (g.lookup t off).map (·.ppn) := by
  intro g
  have hi : g.Isolated := ha.isolated.run ops
  have hshared : ∀ s t off off' f, s ≠ t → g.lookupFrame s off = some f →
      g.lookupFrame t off' = some f → (g.frame f).state = .sharedCow :=
    fun s t _ _ f hst hs ht =>
      hi.shared s t f hst (holds_of_lookupFrame hs) (holds_of_lookupFrame ht)
  refine ⟨fun s t off off' f hst hs ht => ?_, fun s t off off' f hs hf ht => ?_,
    fun op t off ht hop => ((hi.exec op).2 t ht hop).lookup hi off⟩
  · have hf := hshared s t off off' f hst hs ht
    rw [lookup, lookup, hs, ht, Option.map_some, snapshotFromFrame, hf]
    exact ⟨rfl, rfl⟩
  by_contra hts
  have hf' := hshared s t off off' f (Ne.symm hts) hs ht
  rw [hf] at hf'
  cases hf'

/-- A page installed, the set forked, the child's copy replaced: the parent keeps its page. -/
theorem cow_family_isolated_fork :
    let ops := [SetOp.installIfAbsent 0 5 ⟨7, .exclusive⟩, SetOp.forkShare (fun _ => true) 0]
    let g := (runSpec SetOp.step ⟨[], [.new]⟩ ops).1
    let op := SetOp.replaceIfMatch 1 5 ⟨7, .sharedCow⟩ ⟨9, .exclusive⟩
    g.lookup 0 5 = some ⟨7, .sharedCow⟩ ∧ g.lookup 1 5 = some ⟨7, .sharedCow⟩ ∧
      ((op.exec g).lookup 0 5).map (·.ppn) = (g.lookup 0 5).map (·.ppn) := by
  intro ops g op
  have ha : Alone ⟨[], [.new]⟩ :=
    ⟨rfl, sound_default, fun f ⟨k, hf⟩ => by cases hf⟩
  obtain ⟨hshared, -, hother⟩ := cow_family_isolated ha ops
  obtain ⟨h0, h1⟩ := hshared 0 1 5 5 0 (by decide) (by decide +kernel) (by decide +kernel)
  exact ⟨h0.trans (by decide +kernel), h1.trans (by decide +kernel),
    hother op 0 5 (by decide +kernel) (by decide)⟩

end PrivateHeap

end TxKernel.Vm
