import Mathlib.Logic.Function.Basic
import TxKernel.Library.Runs
import TxKernel.PageBacked.Slot

/-!
The durability frontier of an fsync, under interleaving. A page that was dirtied again after the
fsync noted it is taken for clean, even if the noted generation was never written.
-/

namespace TxKernel.PageBacked

open List PageSlot Option Function

/-! ### The container -/

/-- A pass over a frontier: the pages still to be looked at, those to be written back, and whether
to wait. -/
structure Advance where
  frontier : List (ℕ × ℕ)
  todo : List (ℕ × ℕ)
  candidates : List ℕ
  waiting : Bool
  deriving DecidableEq

/-- The slots of a file (none at `bound` or above), the writebacks that were submitted, the
frontiers that were noted, and the passes over them; a pass that has ended leaves a gap. -/
structure PageContainer where
  slots : ℕ → Option PageSlot
  bound : ℕ
  inflight : List (ℕ × ℕ)
  frontiers : List (List (ℕ × ℕ))
  advances : List (Option Advance)

inductive Call
  | beginFetch (page : ℕ)
  | completeFetch (page generation : ℕ) (result : Except Errno Ppn)
  | markDirty (page : ℕ)
  | beginWriteback (page : ℕ)
  | completeWriteback (page generation : ℕ) (result : Except Errno Unit)
  | abortWriteback (page generation : ℕ)
  | invalidate (page : ℕ)
  | withdraw (page generation : ℕ) (ppn : Ppn)
  | replace (page generation : ℕ) (ppn replacement : Ppn)
  | snapshotFrontier
  | startAdvance (frontier : ℕ)
  | lookAtPage (advance : ℕ)
  | endAdvance (advance : ℕ)

inductive Answer
  | none
  | complete (frontier : List (ℕ × ℕ))
  /-- The pages are queued for writeback next; one that can not be queued is waited for. -/
  | submits (pages : List ℕ)
  | waiting
  | error (errno : Errno)
  deriving DecidableEq

namespace PageContainer

def new : PageContainer := ⟨fun _ => none, 0, [], [], []⟩

def setSlot (c : PageContainer) (page : ℕ) (slot : PageSlot) : PageContainer :=
  { c with slots := Function.update c.slots page (some slot), bound := max c.bound (page + 1) }

def onSlot (c : PageContainer) (page : ℕ) (f : PageSlot → Except PageSlotCompletionError PageSlot) :
    PageContainer :=
  match c.slots page with
  | none => c
  | some slot =>
    match f slot with
    | .ok slot => c.setSlot page slot
    | .error _ => c

@[simp]
lemma onSlot_frontiers (c : PageContainer) (page : ℕ)
    (f : PageSlot → Except PageSlotCompletionError PageSlot) :
    (c.onSlot page f).frontiers = c.frontiers := by
  unfold onSlot
  split <;> [rfl; (split <;> rfl)]

/-- The dirty pages, and those under writeback, with their generations. -/
def snapshotFileFsyncFrontier (c : PageContainer) : List (ℕ × ℕ) :=
  (List.range c.bound).filterMap fun page =>
    match c.slots page with
    | some ⟨.dirty _, generation⟩ => some (page, generation)
    | some ⟨.writeback _ _ _, generation⟩ => some (page, generation)
    | _ => none

def fsyncStatus (c : PageContainer) (page generation : ℕ) : Option PageSlotFsyncStatus :=
  (c.slots page).map fun slot => slot.fsyncStatus generation

def setAdvance (c : PageContainer) (a : ℕ) (advance : Option Advance) : PageContainer :=
  { c with advances := c.advances.set a advance }

def lookAtPage (c : PageContainer) (a : ℕ) (advance : Advance) : PageContainer × Answer :=
  match advance.todo with
  | [] => (c, .none)
  | (page, generation) :: todo =>
    match c.fsyncStatus page generation with
    | some (.needsWriteback _) =>
      (c.setAdvance a (some { advance with todo, candidates := advance.candidates ++ [page] }),
        .none)
    | some (.waitingForWriteback _) =>
      (c.setAdvance a (some { advance with todo, waiting := true }), .none)
    | some (.waitingForEarlierWriteback _ _) =>
      (c.setAdvance a (some { advance with todo, waiting := true }), .none)
    | some (.error errno) => (c.setAdvance a none, .error errno)
    | some .clean => (c.setAdvance a (some { advance with todo }), .none)
    | none => (c.setAdvance a (some { advance with todo }), .none)

def endAdvance (c : PageContainer) (a : ℕ) (advance : Advance) : PageContainer × Answer :=
  if advance.todo ≠ [] then (c, .none)
  else if advance.candidates ≠ [] then (c.setAdvance a none, .submits advance.candidates)
  else if advance.waiting then (c.setAdvance a none, .waiting)
  else (c.setAdvance a none, .complete advance.frontier)

/-- Each step holds the lock of the slot or of the container once. -/
def step (c : PageContainer) : Call → PageContainer × Answer
  | .beginFetch page => (c.setSlot page ((c.slots page).getD .new).beginFetch.1, .none)
  | .completeFetch page generation result =>
    (c.onSlot page fun slot => slot.completeFetch generation result, .none)
  | .markDirty page => (c.onSlot page PageSlot.markDirty, .none)
  | .beginWriteback page =>
    match c.slots page with
    | none => (c, .none)
    | some slot =>
      match slot.beginWriteback with
      | .ok slot =>
        ({ c.setSlot page slot with inflight := c.inflight ++ [(page, slot.generation)] }, .none)
      | .error _ => (c, .none)
  | .completeWriteback page generation result =>
    if (page, generation) ∈ c.inflight then
      ({ c.onSlot page fun slot => slot.completeWriteback generation result with
        inflight := c.inflight.erase (page, generation) }, .none)
    else (c, .none)
  | .abortWriteback page generation =>
    if (page, generation) ∈ c.inflight then
      ({ c.onSlot page fun slot => slot.abortWriteback generation with
        inflight := c.inflight.erase (page, generation) }, .none)
    else (c, .none)
  | .invalidate page => (c.onSlot page fun slot => .ok slot.invalidate, .none)
  | .withdraw page generation ppn =>
    (c.onSlot page fun slot => slot.withdrawIfMatches generation ppn, .none)
  | .replace page generation ppn replacement =>
    (c.onSlot page fun slot => slot.replaceIfMatches generation ppn replacement, .none)
  | .snapshotFrontier =>
    ({ c with frontiers := c.frontiers ++ [c.snapshotFileFsyncFrontier] }, .none)
  | .startAdvance f =>
    match c.frontiers[f]? with
    | none => (c, .none)
    | some frontier =>
      ({ c with advances := c.advances ++ [some ⟨frontier, frontier, [], false⟩] }, .none)
  | .lookAtPage a =>
    match c.advances[a]?.join with
    | none => (c, .none)
    | some advance => c.lookAtPage a advance
  | .endAdvance a =>
    match c.advances[a]?.join with
    | none => (c, .none)
    | some advance => c.endAdvance a advance

end PageContainer

/-! ### What was written -/

/-- The container, and the writebacks that were completed and the pages that were dropped, with
their generations. -/
structure Watched where
  container : PageContainer
  written : List (ℕ × ℕ)
  dropped : List (ℕ × ℕ)

namespace Watched

def new : Watched := ⟨.new, [], []⟩

def writtenBy (c : PageContainer) : Call → List (ℕ × ℕ)
  | .completeWriteback page generation (.ok ()) =>
    if (page, generation) ∈ c.inflight then [(page, generation)] else []
  | _ => []

def droppedBy (c : PageContainer) : Call → List (ℕ × ℕ)
  | .invalidate page =>
    match c.slots page with
    | some slot => [(page, slot.generation)]
    | none => []
  | .withdraw page generation ppn =>
    match c.slots page with
    | some slot =>
      match slot.withdrawIfMatches generation ppn with
      | .ok _ => [(page, slot.generation)]
      | .error _ => []
    | none => []
  | _ => []

def step (s : Watched) (call : Call) : Watched × Answer :=
  let r := s.container.step call
  (⟨r.1, s.written ++ writtenBy s.container call, s.dropped ++ droppedBy s.container call⟩, r.2)

/-- A writeback of generation `g` or of later content has completed, or the page was dropped with
such content. -/
def Settled (s : Watched) (page g : ℕ) : Prop :=
  (∃ g', g ≤ g' ∧ (page, g') ∈ s.written) ∨ ∃ g', g ≤ g' ∧ (page, g') ∈ s.dropped

/-- Some fsync has noted the page with generation `g`, which is not settled. -/
def Owed (s : Watched) (page g : ℕ) : Prop :=
  (∃ frontier ∈ s.container.frontiers, (page, g) ∈ frontier) ∧ ¬ s.Settled page g

/-- A dirty page that an fsync has noted is not dirtied again, nor bound to another frame, before
its writeback is submitted; a writeback of a page that was dirtied again does not end while an fsync
waits for content that it has not written; and a page whose writeback failed is not fetched again
while an fsync waits for it. -/
def Careful (s : Watched) : Call → Prop
  | .markDirty page => ∀ slot ppn, s.container.slots page = some slot → slot.state = .dirty ppn →
    ∀ g, ¬ s.Owed page g
  | .replace page generation ppn replacement => ∀ slot slot', s.container.slots page = some slot →
    slot.state = .dirty ppn → slot.replaceIfMatches generation ppn replacement = .ok slot' →
    ∀ g, ¬ s.Owed page g
  | .completeWriteback page generation result => ∀ slot ppn, s.container.slots page = some slot →
    slot.state = .writeback ppn generation true → (page, generation) ∈ s.container.inflight →
    ∀ g, s.Owed page g → g = slot.generation ∨ result = .ok () ∧ g ≤ generation
  | .abortWriteback page generation => ∀ slot ppn, s.container.slots page = some slot →
    slot.state = .writeback ppn generation true → (page, generation) ∈ s.container.inflight →
    ∀ g, s.Owed page g → g = slot.generation
  | .beginFetch page => ∀ slot errno, s.container.slots page = some slot →
    slot.state = .error errno → ∀ g, ¬ s.Owed page g
  | _ => True

def NoWrap (s : Watched) : Call → Prop
  | .markDirty page | .beginFetch page | .invalidate page | .withdraw page _ _
  | .replace page _ _ _ =>
    ∀ slot, s.container.slots page = some slot → slot.generation + 1 < 2 ^ 64
  | _ => True

/-! ### One call -/

/-- Every page of a pass is still to be looked at, to be written, waited for, or settled. -/
structure Accounted (s : Watched) (advance : Advance) : Prop where
  noted : advance.frontier ∈ s.container.frontiers
  todo : ∀ pg ∈ advance.todo, pg ∈ advance.frontier
  pages : ∀ pg ∈ advance.frontier, pg ∈ advance.todo ∨ pg.1 ∈ advance.candidates ∨
    advance.waiting = true ∨ s.Settled pg.1 pg.2

/-- What every call keeps: a page that is owed to an fsync is held by its slot. -/
structure Kept (s : Watched) : Prop where
  sound : ∀ page slot, s.container.slots page = some slot → slot.Sound
  held : ∀ page g, s.Owed page g → ∃ slot, s.container.slots page = some slot ∧ slot.Holds g
  passes : ∀ (a : ℕ) (advance : Advance), s.container.advances[a]?.join = some advance →
    s.Accounted advance

variable {s : Watched} {page : ℕ} {p g : ℕ}

lemma kept_new : Kept new :=
  ⟨by simp [new, PageContainer.new], by simp [Owed, new, PageContainer.new],
    by simp [new, PageContainer.new]⟩

lemma Settled.mono (h : s.Settled p g) (c : PageContainer) (w d : List (ℕ × ℕ)) :
    Settled ⟨c, s.written ++ w, s.dropped ++ d⟩ p g := by
  rcases h with ⟨g', hle, hmem⟩ | ⟨g', hle, hmem⟩
  · exact .inl ⟨g', hle, mem_append_left _ hmem⟩
  · exact .inr ⟨g', hle, mem_append_left _ hmem⟩

variable {w d : List (ℕ × ℕ)} {c : PageContainer}

lemma Owed.of_append (hf : c.frontiers = s.container.frontiers)
    (h : Owed ⟨c, s.written ++ w, s.dropped ++ d⟩ p g) : s.Owed p g := by
  obtain ⟨hnoted, hsettled⟩ := h
  simp only [hf] at hnoted
  exact ⟨hnoted, fun hs => hsettled (hs.mono c w d)⟩

variable {advance : Advance} {g : ℕ} {frontier : List (ℕ × ℕ)} {call : Call}

lemma Accounted.mono (h : s.Accounted advance)
    (hf : ∀ frontier ∈ s.container.frontiers, frontier ∈ c.frontiers) (w d : List (ℕ × ℕ)) :
    Accounted ⟨c, s.written ++ w, s.dropped ++ d⟩ advance :=
  ⟨hf _ h.noted, h.todo, fun pg hpg =>
    (h.pages pg hpg).imp_right fun h => h.imp_right fun h => h.imp_right fun h => h.mono c w d⟩

lemma Kept.same (h : Kept s) (hslots : c.slots = s.container.slots)
    (hf : c.frontiers = s.container.frontiers)
    (ha : ∀ (a : ℕ) (advance : Advance), c.advances[a]?.join = some advance → s.Accounted advance) :
    Kept ⟨c, s.written ++ w, s.dropped ++ d⟩ where
  sound p slot hp := h.sound p slot (by simpa only [hslots] using hp)
  held p g ho := by
    simp only [hslots]
    exact h.held p g (ho.of_append hf)
  passes a advance hadv := (ha a advance hadv).mono (fun f hf' => by simpa only [hf]) w d

lemma Kept.extend (h : Kept s) : Kept ⟨s.container, s.written ++ w, s.dropped ++ d⟩ :=
  h.same rfl rfl h.passes

variable {inflight : List (ℕ × ℕ)}

/-- **A call on one slot**: it is enough that the slot goes on holding what it is owed for. -/
lemma Kept.setSlot (h : Kept s) (page : ℕ) {slot' : PageSlot} (hsound : slot'.Sound)
    (hheld : ∀ g slot, s.container.slots page = some slot → s.Owed page g → slot.Holds g →
      ¬ Settled ⟨{ s.container.setSlot page slot' with inflight }, s.written ++ w, s.dropped ++ d⟩
        page g → slot'.Holds g) :
    Kept ⟨{ s.container.setSlot page slot' with inflight }, s.written ++ w, s.dropped ++ d⟩ where
  sound p slot hp := by
    simp only [PageContainer.setSlot] at hp
    by_cases hpage : p = page
    · subst hpage
      rw [update_self] at hp
      exact some.inj hp ▸ hsound
    · rw [update_of_ne hpage] at hp
      exact h.sound p slot hp
  held p g ho := by
    obtain ⟨slot, hp, hg⟩ := h.held p g (ho.of_append rfl)
    simp only [PageContainer.setSlot]
    by_cases hpage : p = page
    · subst hpage
      exact ⟨slot', update_self .., hheld g slot hp (ho.of_append rfl) hg ho.2⟩
    · exact ⟨slot, by rw [update_of_ne hpage, hp], hg⟩
  passes a advance hadv := (h.passes a advance hadv).mono (fun _ hf => by exact hf) w d

lemma Kept.onSlot (h : Kept s) (page : ℕ) (f : PageSlot → Except PageSlotCompletionError PageSlot)
    (hstep : ∀ slot slot', s.container.slots page = some slot → f slot = .ok slot' →
      slot'.Sound ∧ ∀ g, s.Owed page g → slot.Holds g →
        ¬ Settled ⟨{ s.container.onSlot page f with inflight }, s.written ++ w, s.dropped ++ d⟩
          page g → slot'.Holds g) :
    Kept ⟨{ s.container.onSlot page f with inflight }, s.written ++ w, s.dropped ++ d⟩ := by
  rcases hslot : s.container.slots page with _ | slot
  · rw [PageContainer.onSlot, hslot]
    exact h.same rfl rfl h.passes
  rcases hfs : f slot with e | slot'
  · simp only [PageContainer.onSlot, hslot, hfs]
    exact h.same rfl rfl h.passes
  obtain ⟨hsound, hheld⟩ := hstep slot slot' hslot hfs
  simp only [PageContainer.onSlot, hslot, hfs] at hheld ⊢
  refine h.setSlot page hsound fun g slot₁ hslot₁ ho hg hsettled => ?_
  obtain rfl := some.inj (hslot.symm.trans hslot₁)
  exact hheld g ho hg hsettled

lemma Kept.setAdvance (h : Kept s) (a : ℕ) {next : Option Advance}
    (hnext : ∀ advance, next = some advance → s.Accounted advance) :
    Kept ⟨s.container.setAdvance a next, s.written ++ w, s.dropped ++ d⟩ := by
  refine h.same (c := s.container.setAdvance a next) rfl rfl fun a' advance hadv => ?_
  simp only [PageContainer.setAdvance, getElem?_set] at hadv
  split_ifs at hadv with heq hlt
  · exact hnext advance (by simpa using hadv)
  · simp at hadv
  · exact h.passes a' advance hadv

lemma Kept.holds_of_mem_snapshot (h : Kept s)
    (hmem : (page, g) ∈ s.container.snapshotFileFsyncFrontier) :
    ∃ slot, s.container.slots page = some slot ∧ slot.Holds g := by
  unfold PageContainer.snapshotFileFsyncFrontier at hmem
  obtain ⟨page', -, hslot⟩ := mem_filterMap.mp hmem
  split at hslot
  · rename_i ppn generation heq
    obtain ⟨rfl, rfl⟩ := Prod.mk.inj (some.inj hslot)
    exact ⟨_, heq, rfl⟩
  · rename_i ppn submitted redirtied generation heq
    obtain ⟨rfl, rfl⟩ := Prod.mk.inj (some.inj hslot)
    exact ⟨_, heq, (h.sound _ _ heq ppn submitted redirtied rfl).1, Nat.le_refl _⟩
  · cases hslot

lemma Kept.snapshot (h : Kept s) : Kept (s.step .snapshotFrontier).1 where
  sound := h.sound
  held p g ho := by
    obtain ⟨⟨frontier, hmem, hpg⟩, hsettled⟩ := ho
    rcases mem_append.mp hmem with hold | hnew
    · exact h.held p g ⟨⟨frontier, hold, hpg⟩, fun hs => hsettled (hs.mono _ _ _)⟩
    obtain rfl := mem_singleton.mp hnew
    exact h.holds_of_mem_snapshot hpg
  passes a advance hadv :=
    (h.passes a advance hadv).mono (fun _ hf => mem_append_left _ hf) _ _

lemma Accounted.next (h : s.Accounted advance) {todo : List (ℕ × ℕ)}
    (htodo : advance.todo = (page, g) :: todo) {candidates : List ℕ} {waiting : Bool}
    (hc : ∀ p ∈ advance.candidates, p ∈ candidates) (hw : advance.waiting = true → waiting = true)
    (hhead : page ∈ candidates ∨ waiting = true ∨ s.Settled page g) :
    s.Accounted { advance with todo, candidates, waiting } where
  noted := h.noted
  todo pg hpg := h.todo pg (by rw [htodo]; exact mem_cons_of_mem _ hpg)
  pages pg hpg := by
    rcases h.pages pg hpg with hin | hin | hin | hin
    · rw [htodo] at hin
      rcases mem_cons.mp hin with rfl | hin
      · exact .inr hhead
      · exact .inl hin
    · exact .inr (.inl (hc _ hin))
    · exact .inr (.inr (.inl (hw hin)))
    · exact .inr (.inr (.inr hin))

section

variable (h : Kept s) {generation : ℕ}

include h

lemma Kept.lookAtPage (a : ℕ) (hacc : s.Accounted advance) :
    Kept ⟨(s.container.lookAtPage a advance).1, s.written ++ w, s.dropped ++ d⟩ := by
  unfold PageContainer.lookAtPage
  rcases htodo : advance.todo with _ | ⟨pg, todo⟩
  · exact h.extend
  obtain ⟨page, g⟩ := pg
  have hmem : (page, g) ∈ advance.frontier := hacc.todo _ (by rw [htodo]; exact .head _)
  have hset {next : Advance} (hnext : s.Accounted next) :
      Kept ⟨s.container.setAdvance a (some next), s.written ++ w, s.dropped ++ d⟩ :=
    h.setAdvance a fun _ heq => some.inj heq ▸ hnext
  have hclean (hstatus : ∀ status, s.container.fsyncStatus page g = some status →
      status = .clean) : s.Accounted { advance with todo } := by
    refine hacc.next htodo (fun _ h => h) (fun h => h) (.inr (.inr (by_contra fun hsettled => ?_)))
    obtain ⟨slot, hslot, hg⟩ := h.held page g ⟨⟨_, hacc.noted, hmem⟩, hsettled⟩
    exact hg.fsyncStatus_ne_clean (hstatus _ (by simp [PageContainer.fsyncStatus, hslot]))
  rcases hstatus : s.container.fsyncStatus page g with _ | _ | _ | _ | _ | _ <;> simp only [hstatus]
  · exact hset (hclean (by simp [hstatus]))
  · exact hset (hclean (by simp [hstatus]))
  · exact hset (hacc.next htodo (fun _ h => mem_append_left _ h) (fun h => h)
      (.inl (by simp)))
  · exact hset (hacc.next htodo (fun _ h => h) (fun _ => rfl) (.inr (.inl rfl)))
  · exact hset (hacc.next htodo (fun _ h => h) (fun _ => rfl) (.inr (.inl rfl)))
  · exact h.setAdvance a (by simp)

lemma Kept.endAdvance (a : ℕ) (advance : Advance) :
    Kept ⟨(s.container.endAdvance a advance).1, s.written ++ w, s.dropped ++ d⟩ := by
  unfold PageContainer.endAdvance
  split_ifs
  · exact h.extend
  all_goals exact h.setAdvance a (by simp)

lemma Kept.beginFetch (hcare : s.Careful (.beginFetch page)) :
    Kept (s.step (.beginFetch page)).1 := by
  have hsound : ((s.container.slots page).getD .new).Sound := by
    cases hslot : s.container.slots page with
    | none => exact sound_of_ne_writeback (by simp [PageSlot.new])
    | some slot => exact h.sound page slot hslot
  refine h.setSlot page (beginFetch_spec (g := 0) hsound).1 fun g slot hslot ho hg _ => ?_
  rw [hslot] at hsound ⊢
  exact (beginFetch_spec hsound).2 hg fun errno he => hcare slot errno hslot he g ho

lemma Kept.beginWriteback : Kept (s.step (.beginWriteback page)).1 := by
  simp only [step, PageContainer.step]
  rcases hslot : s.container.slots page with _ | slot
  · exact h.extend
  rcases hbegin : slot.beginWriteback with e | slot'
  · simp only [hbegin]
    exact h.extend
  simp only [hbegin]
  refine h.setSlot page (beginWriteback_spec (g := 0) hbegin).1 fun g slot₁ hslot₁ _ hg _ => ?_
  obtain rfl := some.inj (hslot.symm.trans hslot₁)
  exact (beginWriteback_spec hbegin).2 hg

lemma Kept.completeWriteback {result : Except Errno Unit}
    (hcare : s.Careful (.completeWriteback page generation result)) :
    Kept (s.step (.completeWriteback page generation result)).1 := by
  simp only [step, PageContainer.step]
  by_cases hin : (page, generation) ∈ s.container.inflight
  · have hwritten (hok : result = .ok ()) {g : ℕ} (hle : g ≤ generation) (c : PageContainer)
        (d : List (ℕ × ℕ)) : Settled ⟨c, s.written ++
          writtenBy s.container (.completeWriteback page generation result), d⟩ page g :=
      .inl ⟨generation, hle, mem_append_right _ (by simp [writtenBy, hok, hin])⟩
    rw [if_pos hin]
    refine h.onSlot page (·.completeWriteback generation result) fun slot slot' hslot hf => ?_
    rcases completeWriteback_eq_ok hf with ⟨ppn, hs, rfl⟩ | ⟨ppn, hs, ⟨hok, rfl⟩ | ⟨errno, he, rfl⟩⟩
    · refine ⟨sound_of_ne_writeback (by simp), fun g ho hg hsettled => ?_⟩
      rcases hcare slot ppn hslot hs hin g ho with heq | ⟨hok, hle⟩
      · exact heq.symm
      · exact absurd (hwritten hok hle _ _) hsettled
    · refine ⟨sound_of_ne_writeback (by simp), fun g ho hg hsettled => ?_⟩
      have hcur := (h.sound page slot hslot ppn generation false hs).2 rfl
      exact absurd (hwritten hok (hcur ▸ hg.le_generation) _ _) hsettled
    · exact ⟨sound_of_ne_writeback (by simp), fun g _ hg _ => hg.le_generation⟩
  · rw [if_neg hin]
    exact h.extend

lemma Kept.abortWriteback (hcare : s.Careful (.abortWriteback page generation)) :
    Kept (s.step (.abortWriteback page generation)).1 := by
  simp only [step, PageContainer.step]
  by_cases hin : (page, generation) ∈ s.container.inflight
  · rw [if_pos hin]
    refine h.onSlot page (·.abortWriteback generation) fun slot slot' hslot hf => ?_
    obtain ⟨ppn, redirtied, hs, rfl⟩ := abortWriteback_eq_ok hf
    refine ⟨sound_of_ne_writeback (by simp), fun g ho hg _ => ?_⟩
    cases redirtied with
    | true => exact (hcare slot ppn hslot hs hin g ho).symm
    | false =>
      -- The writeback is of the current generation, and so is what it is held for.
      have hcur := (h.sound page slot hslot ppn generation false hs).2 rfl
      simp only [PageSlot.Holds, hs] at hg ⊢
      omega
  · rw [if_neg hin]
    exact h.extend

lemma Kept.markDirty (hwrap : s.NoWrap (.markDirty page))
    (hcare : s.Careful (.markDirty page)) : Kept (s.step (.markDirty page)).1 := by
  refine h.onSlot page PageSlot.markDirty fun slot slot' hslot hf => ?_
  have hspec (g : ℕ) := markDirty_spec (g := g) (h.sound page slot hslot)
    (hwrap slot hslot) hf
  exact ⟨(hspec 0).1, fun g ho hg _ =>
    (hspec g).2 hg fun ppn hs => hcare slot ppn hslot hs g ho⟩

lemma Kept.drop {f : PageSlot → Except PageSlotCompletionError PageSlot}
    (hf : ∀ slot slot', f slot = .ok slot' → slot' = slot.invalidate)
    (hd : ∀ slot slot', s.container.slots page = some slot → f slot = .ok slot' →
      (page, slot.generation) ∈ d)
    (w : List (ℕ × ℕ)) :
    Kept ⟨s.container.onSlot page f, s.written ++ w, s.dropped ++ d⟩ := by
  refine h.onSlot page f fun slot slot' hslot hok => ?_
  obtain rfl := hf slot slot' hok
  refine ⟨sound_of_ne_writeback (by simp [invalidate]),
    fun g _ hg hsettled => absurd (.inr ⟨slot.generation, hg.le_generation, ?_⟩) hsettled⟩
  exact mem_append_right _ (hd slot _ hslot hok)

/-- **One call**: what is owed to an fsync stays held. -/
theorem Kept.step (hwrap : s.NoWrap call) (hcare : s.Careful call) : Kept (s.step call).1 := by
  cases call with
  | beginFetch page => exact h.beginFetch hcare
  | completeFetch page generation result =>
    refine h.onSlot page (·.completeFetch generation result) fun slot slot' _ hf => ?_
    exact ⟨(completeFetch_spec (g := 0) hf).1, fun g _ hg _ => absurd hg (completeFetch_spec hf).2⟩
  | markDirty page => exact h.markDirty hwrap hcare
  | beginWriteback page => exact h.beginWriteback
  | completeWriteback page generation result => exact h.completeWriteback hcare
  | abortWriteback page generation => exact h.abortWriteback hcare
  | invalidate page =>
    refine h.drop (fun slot slot' hf => (Except.ok.inj hf).symm) (fun slot slot' hslot _ => ?_) _
    simp [droppedBy, hslot]
  | withdraw page generation ppn =>
    refine h.drop (fun slot slot' hf => withdrawIfMatches_eq_ok hf)
      (fun slot slot' hslot hf => ?_) _
    simp [droppedBy, hslot, hf]
  | replace page generation ppn replacement =>
    refine h.onSlot page (·.replaceIfMatches generation ppn replacement)
      fun slot slot' hslot hf => ?_
    rcases replaceIfMatches_eq_ok hf with ⟨hs, rfl⟩ | ⟨hs, rfl⟩
    · exact ⟨sound_of_ne_writeback (by simp), fun g _ hg => by simp [PageSlot.Holds, hs] at hg⟩
    · exact ⟨sound_of_ne_writeback (by simp), fun g ho => absurd ho (hcare slot _ hslot hs hf g)⟩
  | snapshotFrontier => exact h.snapshot
  | startAdvance f =>
    simp only [Watched.step, PageContainer.step]
    rcases hf : s.container.frontiers[f]? with _ | frontier
    · exact h.extend
    refine h.same (by rfl) (by rfl) fun a advance hadv => ?_
    rw [getElem?_append] at hadv
    split_ifs at hadv with hlt
    · exact h.passes a advance hadv
    rw [getElem?_singleton] at hadv
    split_ifs at hadv
    · obtain rfl : _ = advance := some.inj hadv
      exact ⟨mem_of_getElem? hf, fun _ hpg => hpg, fun _ hpg => .inl hpg⟩
    · cases hadv
  | lookAtPage a =>
    simp only [Watched.step, PageContainer.step]
    cases hadv : s.container.advances[a]?.join with
    | none => exact h.extend
    | some advance => exact h.lookAtPage a (h.passes a advance hadv)
  | endAdvance a =>
    simp only [Watched.step, PageContainer.step]
    cases hadv : s.container.advances[a]?.join with
    | none => exact h.extend
    | some advance => exact h.endAdvance a advance

end

lemma complete_of_step (h : (s.step call).2 = .complete frontier) :
    ∃ (a : ℕ) (advance : Advance), s.container.advances[a]?.join = some advance ∧
      advance.frontier = frontier ∧ advance.todo = [] ∧ advance.candidates = [] ∧
      advance.waiting = false := by
  cases call <;> simp only [step, PageContainer.step] at h
  case endAdvance a =>
    rcases hadv : s.container.advances[a]?.join with _ | advance
    · simp [hadv] at h
    simp only [hadv, PageContainer.endAdvance] at h
    split_ifs at h with htodo hcand hwait
    exact ⟨a, advance, hadv, Answer.complete.inj h, not_not.mp htodo, not_not.mp hcand,
      eq_false_of_ne_true hwait⟩
  case lookAtPage a =>
    split at h
    · cases h
    · unfold PageContainer.lookAtPage at h
      split at h
      · cases h
      · split at h <;> cases h
  all_goals (try split at h) <;> (try split at h) <;> cases h

lemma Owed.onSlot (ho : s.Owed page g) {slot : PageSlot}
    (f : PageSlot → Except PageSlotCompletionError PageSlot) (slot' : PageSlot)
    (hslot : s.container.slots page = some slot) (hok : f slot = .ok slot')
    (hsettled : ¬ Settled ⟨{ s.container.onSlot page f with inflight }, w, d⟩ page g)
    (hclean : slot'.fsyncStatus g = .clean) :
    ∃ p g, Owed ⟨{ s.container.onSlot page f with inflight }, w, d⟩ p g ∧
      { s.container.onSlot page f with inflight }.fsyncStatus p g = some .clean := by
  refine ⟨page, g, ⟨by simpa using ho.1, hsettled⟩, ?_⟩
  simp [PageContainer.fsyncStatus, PageContainer.onSlot, PageContainer.setSlot, hslot, hok, hclean]

lemma Owed.not_settled (ho : s.Owed page g) (c : PageContainer) (hw : w = []) (hd : d = []) :
    ¬ Settled ⟨c, s.written ++ w, s.dropped ++ d⟩ page g := by
  subst hw hd
  simpa only [Settled, append_nil] using ho.2

/-- **The condition is needed**: after any other call an unsettled page is taken for clean. -/
lemma Kept.clean_of_not_careful (h : Kept s) (hwrap : s.NoWrap call) (hcare : ¬ s.Careful call) :
    ∃ page g, (s.step call).1.Owed page g ∧
      (s.step call).1.container.fsyncStatus page g = some .clean := by
  have hheld {page g : ℕ} {slot : PageSlot} (hslot : s.container.slots page = some slot)
      (ho : s.Owed page g) : slot.Holds g := by
    obtain ⟨slot₁, hslot₁, hg⟩ := h.held page g ho
    exact some.inj (hslot.symm.trans hslot₁) ▸ hg
  cases call with
  | markDirty page =>
    simp only [Careful, not_forall, not_not] at hcare
    obtain ⟨slot, ppn, hslot, hs, g, ho⟩ := hcare
    have hg : slot.generation = g := by simpa only [PageSlot.Holds, hs] using hheld hslot ho
    refine ho.onSlot PageSlot.markDirty ⟨.dirty ppn, slot.nextGeneration⟩ hslot
      (by simp [PageSlot.markDirty, hs]) (ho.not_settled _ rfl rfl) (fsyncStatus_eq_clean rfl ?_)
    simp only [nextGeneration_of_lt (hwrap slot hslot)]
    omega
  | replace page generation ppn replacement =>
    simp only [Careful, not_forall, not_not] at hcare
    obtain ⟨slot, slot', hslot, hs, hf, g, ho⟩ := hcare
    have hg : slot.generation = g := by simpa only [PageSlot.Holds, hs] using hheld hslot ho
    obtain ⟨-, rfl⟩ := (replaceIfMatches_eq_ok hf).resolve_left fun hc => by
      rw [hs] at hc
      cases hc.1
    refine ho.onSlot (·.replaceIfMatches generation ppn replacement) _ hslot hf
      (ho.not_settled _ rfl rfl) (fsyncStatus_eq_clean rfl ?_)
    simp only [nextGeneration_of_lt (hwrap slot hslot)]
    omega
  | completeWriteback page generation result =>
    simp only [Careful, not_forall, not_or] at hcare
    obtain ⟨slot, ppn, hslot, hs, hin, g, ho, hne, hresult⟩ := hcare
    have hlt : g < slot.generation := Nat.lt_of_le_of_ne (hheld hslot ho).le_generation hne
    simp only [Watched.step, PageContainer.step, if_pos hin]
    refine ho.onSlot (fun slot => slot.completeWriteback generation result)
      { slot with state := .dirty ppn } hslot (by simp [PageSlot.completeWriteback, hs]) ?_
      (fsyncStatus_eq_clean rfl hlt)
    rcases result with errno | ⟨⟩
    · exact ho.not_settled _ rfl rfl
    have hgt : generation < g := Nat.lt_of_not_le fun hle => hresult ⟨rfl, hle⟩
    rintro (⟨g', hle, hmem⟩ | hdropped)
    · simp only [writtenBy, if_pos hin, mem_append, mem_singleton, Prod.mk.injEq] at hmem
      rcases hmem with hmem | ⟨-, rfl⟩
      · exact ho.2 (.inl ⟨g', hle, hmem⟩)
      · omega
    · exact ho.2 (.inr (by simpa [droppedBy] using hdropped))
  | abortWriteback page generation =>
    simp only [Careful, not_forall] at hcare
    obtain ⟨slot, ppn, hslot, hs, hin, g, ho, hne⟩ := hcare
    have hlt : g < slot.generation := Nat.lt_of_le_of_ne (hheld hslot ho).le_generation hne
    simp only [Watched.step, PageContainer.step, if_pos hin]
    exact ho.onSlot (fun slot => slot.abortWriteback generation)
      { slot with state := .dirty ppn } hslot (by simp [PageSlot.abortWriteback, hs])
      (ho.not_settled _ rfl rfl) (fsyncStatus_eq_clean rfl hlt)
  | beginFetch page =>
    simp only [Careful, not_forall, not_not] at hcare
    obtain ⟨slot, errno, hslot, hs, g, ho⟩ := hcare
    refine ⟨page, g, ⟨ho.1, ho.not_settled _ rfl rfl⟩, ?_⟩
    simp [Watched.step, PageContainer.step, PageContainer.fsyncStatus, PageContainer.setSlot, hslot,
      PageSlot.beginFetch, hs, PageSlot.fsyncStatus]
  | _ => exact absurd trivial hcare

/-! ### Runs -/

/-- **What an fsync promises**. In every interleaving without the steps that lose a page, a frontier
that is reported as complete is settled page by page; after any such step a page is taken for clean
whose noted content was not written. -/
theorem fsync_frontier (calls : List Call)
    (hcalls : Runs.Allowed step (fun s call => s.NoWrap call ∧ s.Careful call) new calls)
    (call : Call) :
    let s := (Runs.runSpec step new calls).1
    (∀ frontier, (s.step call).2 = .complete frontier → ∀ pg ∈ frontier, s.Settled pg.1 pg.2) ∧
      (s.NoWrap call → ¬ s.Careful call → ∃ page g, (s.step call).1.Owed page g ∧
        (s.step call).1.container.fsyncStatus page g = some .clean) := by
  intro s
  have hkept : Kept s := Runs.invariant Kept (fun _ _ h hpre => h.step hpre.1 hpre.2) calls kept_new
    hcalls
  refine ⟨fun frontier hcomplete pg hpg => ?_, fun hwrap => hkept.clean_of_not_careful hwrap⟩
  obtain ⟨a, advance, hadv, rfl, htodo, hcand, hwait⟩ := complete_of_step hcomplete
  have hpages := (hkept.passes a advance hadv).pages pg hpg
  simpa [htodo, hcand, hwait] using hpages

def writtenOnce : List Call :=
  [.beginFetch 0, .completeFetch 0 1 (.ok 7), .markDirty 0, .snapshotFrontier, .startAdvance 0,
    .lookAtPage 0, .endAdvance 0, .beginWriteback 0, .completeWriteback 0 2 (.ok ()),
    .startAdvance 0, .lookAtPage 1]

lemma allowed_writtenOnce :
    Runs.Allowed step (fun s call => s.NoWrap call ∧ s.Careful call) new writtenOnce := by
  refine ⟨⟨?_, ?_⟩, ⟨trivial, trivial⟩, ⟨?_, ?_⟩, ⟨trivial, trivial⟩, ⟨trivial, trivial⟩,
    ⟨trivial, trivial⟩, ⟨trivial, trivial⟩, ⟨trivial, trivial⟩, ⟨trivial, ?_⟩, ⟨trivial, trivial⟩,
    ⟨trivial, trivial⟩, trivial⟩
  · intro slot hslot
    cases hslot
  · intro slot errno hslot
    cases hslot
  · intro slot hslot
    obtain rfl : ⟨.resident 7, 1⟩ = slot := some.inj hslot
    decide
  · intro slot ppn hslot hs
    obtain rfl : ⟨.resident 7, 1⟩ = slot := some.inj hslot
    cases hs
  · intro slot ppn hslot hs
    obtain rfl : ⟨.writeback 7 2 false, 2⟩ = slot := some.inj hslot
    cases hs

theorem fsync_frontier_writtenOnce :
    ((Runs.runSpec step new writtenOnce).1.step (.endAdvance 1)).2 = .complete [(0, 2)] ∧
      (Runs.runSpec step new writtenOnce).1.Settled 0 2 :=
  ⟨by decide, (fsync_frontier writtenOnce allowed_writtenOnce (.endAdvance 1)).1 [(0, 2)]
    (by decide) (0, 2) (.head _)⟩

def dirtiedAgain : List Call :=
  [.beginFetch 0, .completeFetch 0 1 (.ok 7), .markDirty 0, .snapshotFrontier, .markDirty 0,
    .startAdvance 0, .lookAtPage 0, .endAdvance 0]

/-- The fsync reports the page of generation 2 as durable, though nothing was ever written. -/
theorem lost_frontier :
    (Runs.runSpec step new dirtiedAgain).2.getLast? = some (.complete [(0, 2)]) ∧
      (Runs.runSpec step new dirtiedAgain).1.written = [] ∧
      (Runs.runSpec step new dirtiedAgain).1.dropped = [] := by
  decide

end Watched

end TxKernel.PageBacked
