import TxKernel.PageBacked.Slot

/-!
Whole histories of one slot, with a ledger of what is due: the changes that were not written back,
and the fetches and writebacks that did not end.
-/

namespace TxKernel.PageBacked

namespace PageSlot

def markCleanIfMatches (s : PageSlot) (expectedGeneration : ℕ) (expectedPpn : Ppn) :
    Except PageSlotCompletionError PageSlot :=
  if s.generation ≠ expectedGeneration then
    .error (.generationMismatch s.generation expectedGeneration)
  else
    match s.state with
    | .dirty current =>
      if current ≠ expectedPpn then .error (.mismatchedFrame expectedPpn current)
      else .ok { s with state := .resident current }
    | _ => s.notFetching

def invalidateIfGeneration (s : PageSlot) (expectedGeneration : ℕ) :
    Except PageSlotCompletionError PageSlot :=
  if s.generation ≠ expectedGeneration then
    .error (.generationMismatch s.generation expectedGeneration)
  else .ok s.invalidate

lemma markCleanIfMatches_eq_ok {s s' : PageSlot} {generation : ℕ} {ppn : Ppn}
    (h : s.markCleanIfMatches generation ppn = .ok s') :
    s.state = .dirty ppn ∧ s' = { s with state := .resident ppn } := by
  unfold markCleanIfMatches at h
  split_ifs at h
  split at h
  · rename_i current hs
    split_ifs at h with hp
    obtain rfl := not_not.mp hp
    exact ⟨hs, (Except.ok.inj h).symm⟩
  · cases h

end PageSlot

inductive SlotCall
  | beginFetch
  | completeFetch (generation : ℕ) (result : Except Errno Ppn)
  | markDirty
  | beginWriteback
  | completeWriteback (generation : ℕ) (result : Except Errno Unit)
  | abortWriteback (generation : ℕ)
  | invalidate
  | withdrawIfMatches (generation : ℕ) (ppn : Ppn)
  | replaceIfMatches (generation : ℕ) (ppn replacement : Ppn)
  | markCleanIfMatches (generation : ℕ) (ppn : Ppn)
  | invalidateIfGeneration (generation : ℕ)

def PageSlot.call (s : PageSlot) : SlotCall → Except PageSlotCompletionError PageSlot
  | .beginFetch => .ok s.beginFetch.1
  | .completeFetch g r => s.completeFetch g r
  | .markDirty => s.markDirty
  | .beginWriteback => s.beginWriteback
  | .completeWriteback g r => s.completeWriteback g r
  | .abortWriteback g => s.abortWriteback g
  | .invalidate => .ok s.invalidate
  | .withdrawIfMatches g p => s.withdrawIfMatches g p
  | .replaceIfMatches g p p' => s.replaceIfMatches g p p'
  | .markCleanIfMatches g p => s.markCleanIfMatches g p
  | .invalidateIfGeneration g => s.invalidateIfGeneration g

/-- The slot, how often its generation was bumped, and the generations of what is due. -/
structure Ledger where
  slot : PageSlot
  bumps : ℕ
  changes : List ℕ
  fetches : List ℕ
  writebacks : List ℕ

namespace Ledger

def new : Ledger := ⟨.new, 0, [], [], []⟩

/-- What is due after a call left the slot `s`. The end of a writeback settles the changes up to its
generation. -/
def record (l : Ledger) (s : PageSlot) : SlotCall → Ledger
  | .beginFetch =>
    match l.slot.beginFetch.2 with
    | .owner g => { l with fetches := g :: l.fetches }
    | _ => l
  | .completeFetch g _ => { l with fetches := l.fetches.erase g }
  | .markDirty => { l with changes := s.generation :: l.changes }
  | .beginWriteback => { l with writebacks := s.generation :: l.writebacks }
  | .completeWriteback g _ =>
    { l with changes := l.changes.filter (g < ·), writebacks := l.writebacks.erase g }
  | .abortWriteback g => { l with writebacks := l.writebacks.erase g }
  | .replaceIfMatches _ _ _ => l
  | .markCleanIfMatches _ _ => { l with changes := [] }
  | .invalidate | .withdrawIfMatches _ _ | .invalidateIfGeneration _ =>
    { l with changes := [], fetches := [], writebacks := [] }

def step (l : Ledger) (c : SlotCall) : Ledger :=
  match l.slot.call c with
  | .error _ => l
  | .ok s =>
    { l.record s c with
      slot := s
      bumps := l.bumps + if s.generation = l.slot.generation then 0 else 1 }

/-- The page is not clean before a writeback of generation `g` or later ends. -/
def Covers (s : PageSlot) (g : ℕ) : Prop :=
  g ≤ s.generation ∧
    match s.state with
    | .dirty _ => True
    | .writeback _ submitted redirtied => redirtied = true ∨ g ≤ submitted
    | _ => False

structure Kept (l : Ledger) : Prop where
  generation : l.slot.generation = l.bumps
  changes : ∀ g ∈ l.changes, Covers l.slot g
  fetches : l.fetches = if l.slot.state = .fetching then [l.slot.generation] else []
  writebacks : l.writebacks = match l.slot.state with
    | .writeback _ submitted _ => [submitted]
    | _ => []

open PageSlot

variable {l : Ledger} {g : ℕ}

variable {c : SlotCall} {s : PageSlot}

lemma Kept.of_ok (h : Kept l) (hwrap : (l.step c).bumps < 2 ^ 64) (hcall : l.slot.call c = .ok s)
    (hgen : s.generation = l.slot.generation ∨ s.generation = l.slot.nextGeneration)
    (hchanges : l.slot.generation ≤ s.generation → ∀ g ∈ (l.record s c).changes, Covers s g)
    (hfetches : (l.record s c).fetches = if s.state = .fetching then [s.generation] else [])
    (hwritebacks : (l.record s c).writebacks = match s.state with
      | .writeback _ submitted _ => [submitted]
      | _ => []) : Kept (l.step c) := by
  simp only [Ledger.step, hcall] at hwrap ⊢
  have hn := h.generation
  -- the generation is the number of bumps, so that it does not wrap either
  have hbumps : s.generation = l.bumps + if s.generation = l.slot.generation then 0 else 1 := by
    simp only [nextGeneration] at hgen
    split_ifs at hwrap ⊢ <;> omega
  exact ⟨hbumps, hchanges (by split_ifs at hbumps <;> omega), hfetches, hwritebacks⟩

lemma Kept.invalidate (h : Kept l) (hwrap : (l.step c).bumps < 2 ^ 64)
    (hcall : l.slot.call c = .ok l.slot.invalidate)
    (hc : l.record l.slot.invalidate c =
      { l with changes := [], fetches := [], writebacks := [] }) :
    Kept (l.step c) := by
  refine h.of_ok hwrap hcall (.inr rfl) ?_ ?_ ?_ <;> simp only [hc]
  · simp
  · rfl
  · rfl

lemma Kept.step (h : Kept l) (c : SlotCall) (hwrap : (l.step c).bumps < 2 ^ 64) :
    Kept (l.step c) := by
  rcases hcall : l.slot.call c with e | s
  · rw [Ledger.step, hcall]
    exact h
  have hchanges := h.changes
  have hf := h.fetches
  have hw := h.writebacks
  cases c with
  | beginFetch =>
    obtain rfl := Except.ok.inj hcall
    cases hs : l.slot.state with
    | empty | error errno =>
      -- a fetch begins, and no change is due
      have hbegin : l.slot.beginFetch =
          (⟨.fetching, l.slot.nextGeneration⟩, .owner l.slot.nextGeneration) := by
        simp only [beginFetch, hs]
      refine h.of_ok hwrap hcall ?_ ?_ ?_ ?_ <;> simp_all [record, Covers]
    | fetching | resident ppn | dirty ppn | writeback ppn submitted redirtied =>
      have hsame : l.slot.beginFetch.1 = l.slot ∧ l.record l.slot .beginFetch = l := by
        simp [beginFetch, record, hs]
      rw [hsame.1] at hcall
      exact h.of_ok hwrap hcall (.inl rfl) (fun _ => by rwa [hsame.2]) (by rwa [hsame.2])
        (by rwa [hsame.2])
  | completeFetch generation result =>
    obtain ⟨rfl, hs, ⟨ppn, rfl⟩ | ⟨errno, rfl⟩⟩ := completeFetch_eq_ok hcall <;>
      refine h.of_ok hwrap hcall (.inl rfl) ?_ ?_ ?_ <;> simp_all [record, Covers]
  | markDirty =>
    -- this change is due from here on, and those before it still are
    have hcovers {state : PageSlotState} (hle : l.slot.generation ≤ l.slot.nextGeneration)
        (hstate : ∀ g, Covers ⟨state, l.slot.nextGeneration⟩ g ↔ g ≤ l.slot.nextGeneration) :
        ∀ g ∈ l.slot.nextGeneration :: l.changes, Covers ⟨state, l.slot.nextGeneration⟩ g := by
      simp only [List.mem_cons, forall_eq_or_imp, hstate, Nat.le_refl, true_and]
      exact fun g hg => Nat.le_trans (hchanges g hg).1 hle
    rcases markDirty_eq_ok hcall with ⟨ppn, hs, rfl⟩ | ⟨ppn, submitted, redirtied, hs, rfl⟩
    · refine h.of_ok hwrap hcall (.inr rfl) (fun hle => hcovers hle (by simp [Covers])) ?_ ?_ <;>
        rcases hs with hs | hs <;> simp_all [record]
    · refine h.of_ok hwrap hcall (.inr rfl) (fun hle => hcovers hle (by simp [Covers])) ?_ ?_ <;>
        simp_all [record]
  | beginWriteback =>
    obtain ⟨ppn, hs, rfl⟩ := beginWriteback_eq_ok hcall
    refine h.of_ok hwrap hcall (.inl rfl) ?_ ?_ ?_ <;> rcases hs with hs | hs <;>
      simp_all [record, Covers]
  | completeWriteback generation result =>
    rcases completeWriteback_eq_ok hcall with
      ⟨ppn, hs, rfl⟩ | ⟨ppn, hs, ⟨-, rfl⟩ | ⟨errno, -, rfl⟩⟩
    · -- changes of later generations stay due, and the page is dirty for them
      refine h.of_ok hwrap hcall (.inl rfl) ?_ ?_ ?_ <;> simp_all [record, Covers]
    -- no change is later than a writeback that was not dirtied again
    all_goals refine h.of_ok hwrap hcall (.inl rfl) ?_ ?_ ?_ <;> simp_all [record, Covers]
  | abortWriteback generation =>
    obtain ⟨ppn, redirtied, hs, rfl⟩ := abortWriteback_eq_ok hcall
    refine h.of_ok hwrap hcall (.inl rfl) ?_ ?_ ?_ <;> simp_all [record, Covers]
  | invalidate => exact h.invalidate hwrap rfl rfl
  | withdrawIfMatches generation ppn =>
    obtain rfl := withdrawIfMatches_eq_ok hcall
    exact h.invalidate hwrap hcall rfl
  | replaceIfMatches generation ppn replacement =>
    rcases replaceIfMatches_eq_ok hcall with ⟨hs, rfl⟩ | ⟨hs, rfl⟩
    · refine h.of_ok hwrap hcall (.inr rfl) ?_ ?_ ?_ <;> simp_all [record, Covers]
    · refine h.of_ok hwrap hcall (.inr rfl) (fun hle g hg => ⟨?_, trivial⟩) ?_ ?_
      · exact Nat.le_trans (hchanges g hg).1 hle
      all_goals simp_all [record]
  | markCleanIfMatches generation ppn =>
    obtain ⟨hs, rfl⟩ := markCleanIfMatches_eq_ok hcall
    refine h.of_ok hwrap hcall (.inl rfl) ?_ ?_ ?_ <;> simp_all [record]
  | invalidateIfGeneration generation =>
    simp only [PageSlot.call, invalidateIfGeneration] at hcall
    split_ifs at hcall with hgen
    obtain rfl := Except.ok.inj hcall
    exact h.invalidate hwrap (by simp [PageSlot.call, invalidateIfGeneration, hgen]) rfl

lemma bumps_le_step (l : Ledger) (c : SlotCall) : l.bumps ≤ (l.step c).bumps := by
  unfold Ledger.step
  split
  · exact Nat.le_refl _
  · exact Nat.le_add_right _ _

lemma Kept.step_completeFetch (h : Kept l) (hg : g ∉ l.fetches) (r : Except Errno Ppn) :
    l.step (.completeFetch g r) = l := by
  rcases hcall : l.slot.call (.completeFetch g r) with e | s
  · rw [Ledger.step, hcall]
  · obtain ⟨rfl, hs, -⟩ := completeFetch_eq_ok hcall
    exact absurd (by rw [h.fetches, if_pos hs]; exact .head _) hg

lemma Kept.step_completeWriteback (h : Kept l) (hg : g ∉ l.writebacks) (r : Except Errno Unit) :
    l.step (.completeWriteback g r) = l := by
  rcases hcall : l.slot.call (.completeWriteback g r) with e | s
  · rw [Ledger.step, hcall]
  · rcases completeWriteback_eq_ok hcall with ⟨ppn, hs, -⟩ | ⟨ppn, hs, -⟩ <;>
      exact absurd (by rw [h.writebacks, hs]; exact .head _) hg

/-- **Every history** with fewer than `2 ^ 64` bumps: while a change is due the page is dirty or
under writeback, a completion of another generation than the one in flight changes nothing, and at
most one fetch and one writeback are in flight. -/
theorem history_sound (calls : List SlotCall) (hbumps : (calls.foldl step new).bumps < 2 ^ 64) :
    let l := calls.foldl step new
    (l.changes ≠ [] → ∃ ppn, l.slot.state = .dirty ppn ∨
        ∃ submitted redirtied, l.slot.state = .writeback ppn submitted redirtied) ∧
      (∀ g r, g ∉ l.fetches → l.step (.completeFetch g r) = l) ∧
      (∀ g r, g ∉ l.writebacks → l.step (.completeWriteback g r) = l) ∧
      l.fetches.length ≤ 1 ∧ l.writebacks.length ≤ 1 := by
  have hnew : Kept new := ⟨rfl, by simp [new], rfl, rfl⟩
  have h : Kept (calls.foldl step new) :=
    List.foldlRecOn (motive := fun l : Ledger => l.bumps < 2 ^ 64 → Kept l) calls step (fun _ =>
      hnew) (fun l ih c _ hw => (ih (Nat.lt_of_le_of_lt (bumps_le_step l c) hw)).step c hw) hbumps
  intro l
  refine ⟨fun hne => ?_, fun g r hg => h.step_completeFetch hg r,
    fun g r hg => h.step_completeWriteback hg r, ?_, ?_⟩
  · obtain ⟨g, hg⟩ := List.exists_mem_of_ne_nil _ hne
    have hcovers := (h.changes g hg).2
    cases hs : l.slot.state <;> simp_all [l]
  · rw [h.fetches]
    split <;> simp
  · rw [h.writebacks]
    split <;> simp

theorem history_sound_redirtied :
    let l := [.beginFetch, .completeFetch 1 (.ok 7), .markDirty, .beginWriteback, .markDirty,
      .completeWriteback 2 (.ok ())].foldl step new
    l.changes = [3] ∧ ∃ ppn, l.slot.state = .dirty ppn ∨
      ∃ submitted redirtied, l.slot.state = .writeback ppn submitted redirtied :=
  ⟨rfl, (history_sound _ (by decide)).1 (by decide)⟩

end Ledger

end TxKernel.PageBacked
