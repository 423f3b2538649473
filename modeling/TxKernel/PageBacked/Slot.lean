import Mathlib.Algebra.Group.Nat.Defs
import Mathlib.Data.List.Basic

/-!
The slot of one page of a cached file: who fetches it, whether it is dirty or being written back,
and the generation of its content.
-/

namespace TxKernel.PageBacked

abbrev Ppn := ℕ

abbrev Errno := ℕ

inductive PageSlotState
  | empty
  | resident (ppn : Ppn)
  | fetching
  | dirty (ppn : Ppn)
  | writeback (ppn : Ppn) (submittedGeneration : ℕ) (redirtied : Bool)
  | error (errno : Errno)
  deriving DecidableEq

structure PageSlot where
  state : PageSlotState
  generation : ℕ
  deriving DecidableEq

inductive PageSlotFetch
  | owner (generation : ℕ)
  | joined (generation : ℕ)
  | resident (ppn : Ppn) (generation : ℕ)
  | blocked (state : PageSlotState) (generation : ℕ)
  deriving DecidableEq

inductive PageSlotCompletionError
  | generationMismatch (current completed : ℕ)
  | mismatchedFrame (expected current : Ppn)
  | notFetching (state : PageSlotState) (generation : ℕ)
  deriving DecidableEq

inductive PageSlotFsyncStatus
  | clean
  | needsWriteback (generation : ℕ)
  | waitingForWriteback (submittedGeneration : ℕ)
  | waitingForEarlierWriteback (submittedGeneration frontier : ℕ)
  | error (errno : Errno)
  deriving DecidableEq

namespace PageSlot

def new : PageSlot := ⟨.empty, 0⟩

def nextGeneration (s : PageSlot) : ℕ := max ((s.generation + 1) % 2 ^ 64) 1

def fsyncStatus (s : PageSlot) (frontier : ℕ) : PageSlotFsyncStatus :=
  match s.state with
  | .resident _ => .clean
  | .empty => .clean
  | .fetching => .clean
  | .dirty _ => if s.generation ≤ frontier then .needsWriteback s.generation else .clean
  | .writeback _ submitted _ =>
    if frontier ≤ submitted then .waitingForWriteback submitted
    else .waitingForEarlierWriteback submitted frontier
  | .error errno => .error errno

def notFetching {α : Type} (s : PageSlot) : Except PageSlotCompletionError α :=
  .error (.notFetching s.state s.generation)

def beginFetch (s : PageSlot) : PageSlot × PageSlotFetch :=
  match s.state with
  | .empty => (⟨.fetching, s.nextGeneration⟩, .owner s.nextGeneration)
  | .error _ => (⟨.fetching, s.nextGeneration⟩, .owner s.nextGeneration)
  | .fetching => (s, .joined s.generation)
  | .resident ppn => (s, .resident ppn s.generation)
  | .dirty ppn => (s, .resident ppn s.generation)
  | .writeback _ _ _ => (s, .blocked s.state s.generation)

def completeFetch (s : PageSlot) (generation : ℕ) (result : Except Errno Ppn) :
    Except PageSlotCompletionError PageSlot :=
  if s.generation ≠ generation then .error (.generationMismatch s.generation generation)
  else if s.state ≠ .fetching then s.notFetching
  else
    match result with
    | .ok ppn => .ok { s with state := .resident ppn }
    | .error errno => .ok { s with state := .error errno }

def markDirty (s : PageSlot) : Except PageSlotCompletionError PageSlot :=
  match s.state with
  | .resident ppn => .ok ⟨.dirty ppn, s.nextGeneration⟩
  | .dirty ppn => .ok ⟨.dirty ppn, s.nextGeneration⟩
  | .writeback ppn submitted _ => .ok ⟨.writeback ppn submitted true, s.nextGeneration⟩
  | _ => s.notFetching

def beginWriteback (s : PageSlot) : Except PageSlotCompletionError PageSlot :=
  match s.state with
  | .dirty ppn => .ok { s with state := .writeback ppn s.generation false }
  | .resident ppn => .ok { s with state := .writeback ppn s.generation false }
  | _ => s.notFetching

def completeWriteback (s : PageSlot) (generation : ℕ) (result : Except Errno Unit) :
    Except PageSlotCompletionError PageSlot :=
  match s.state with
  | .writeback ppn submitted redirtied =>
    if submitted ≠ generation then .error (.generationMismatch s.generation generation)
    else if redirtied then .ok { s with state := .dirty ppn }
    else
      match result with
      | .ok () => .ok { s with state := .resident ppn }
      | .error errno => .ok { s with state := .error errno }
  | _ => s.notFetching

def abortWriteback (s : PageSlot) (generation : ℕ) :
    Except PageSlotCompletionError PageSlot :=
  match s.state with
  | .writeback ppn submitted _ =>
    if submitted ≠ generation then .error (.generationMismatch s.generation generation)
    else .ok { s with state := .dirty ppn }
  | _ => s.notFetching

def invalidate (s : PageSlot) : PageSlot := ⟨.empty, s.nextGeneration⟩

def ppn? (s : PageSlot) : Option Ppn :=
  match s.state with
  | .resident ppn => some ppn
  | .dirty ppn => some ppn
  | .writeback ppn _ _ => some ppn
  | _ => none

def withdrawIfMatches (s : PageSlot) (expectedGeneration : ℕ) (expectedPpn : Ppn) :
    Except PageSlotCompletionError PageSlot :=
  if s.generation ≠ expectedGeneration then
    .error (.generationMismatch s.generation expectedGeneration)
  else
    match s.ppn? with
    | none => s.notFetching
    | some current =>
      if current ≠ expectedPpn then .error (.mismatchedFrame expectedPpn current)
      else .ok s.invalidate

def replaceIfMatches (s : PageSlot) (expectedGeneration : ℕ) (expectedPpn replacementPpn : Ppn) :
    Except PageSlotCompletionError PageSlot :=
  if s.generation ≠ expectedGeneration then
    .error (.generationMismatch s.generation expectedGeneration)
  else
    match s.state with
    | .resident ppn =>
      if ppn = expectedPpn then .ok ⟨.resident replacementPpn, s.nextGeneration⟩
      else .error (.mismatchedFrame expectedPpn ppn)
    | .dirty ppn =>
      if ppn = expectedPpn then .ok ⟨.dirty replacementPpn, s.nextGeneration⟩
      else .error (.mismatchedFrame expectedPpn ppn)
    | _ => s.notFetching

/-! ### What the steps keep -/

/-- A writeback that was not re-dirtied is of the current generation. -/
def Sound (s : PageSlot) : Prop :=
  ∀ ppn submitted redirtied, s.state = .writeback ppn submitted redirtied →
    submitted ≤ s.generation ∧ (redirtied = false → submitted = s.generation)

/-- The slot will still have an fsync for generation `g` wait or fail. -/
def Holds (s : PageSlot) (g : ℕ) : Prop :=
  match s.state with
  | .dirty _ => s.generation = g
  | .writeback _ submitted _ => submitted ≤ g ∧ g ≤ s.generation
  | .error _ => g ≤ s.generation
  | _ => False

variable {s s' : PageSlot} {g generation : ℕ} {ppn : Ppn}

lemma Holds.fsyncStatus_ne_clean (h : s.Holds g) : s.fsyncStatus g ≠ .clean := by
  unfold Holds at h
  unfold fsyncStatus
  cases hs : s.state <;> simp only [hs] at h ⊢
  · simp [h]
  · split_ifs <;> simp
  · simp

lemma fsyncStatus_eq_clean (hs : s.state = .dirty ppn) (hlt : g < s.generation) :
    s.fsyncStatus g = .clean := by
  simp [fsyncStatus, hs, hlt]

lemma nextGeneration_of_lt (h : s.generation + 1 < 2 ^ 64) :
    s.nextGeneration = s.generation + 1 := by
  unfold nextGeneration
  rw [Nat.mod_eq_of_lt h]
  omega

lemma Holds.le_generation (h : s.Holds g) : g ≤ s.generation := by
  unfold Holds at h
  cases hs : s.state <;> simp only [hs] at h
  · exact Nat.le_of_eq h.symm
  · exact h.2
  · exact h

lemma sound_of_ne_writeback
    (h : ∀ ppn submitted redirtied, s.state ≠ .writeback ppn submitted redirtied) : s.Sound :=
  fun ppn submitted redirtied hs => absurd hs (h ppn submitted redirtied)

lemma beginFetch_spec (h : s.Sound) :
    s.beginFetch.1.Sound ∧
      (s.Holds g → (∀ errno, s.state ≠ .error errno) → s.beginFetch.1.Holds g) := by
  unfold beginFetch
  cases hs : s.state with
  | empty => exact ⟨sound_of_ne_writeback (by simp), fun hg => by simp [Holds, hs] at hg⟩
  | error errno => exact ⟨sound_of_ne_writeback (by simp), fun _ he => absurd rfl (he errno)⟩
  | _ => exact ⟨h, fun hg _ => hg⟩

lemma completeFetch_eq_ok {result : Except Errno Ppn}
    (h : s.completeFetch generation result = .ok s') :
    s.generation = generation ∧ s.state = .fetching ∧
      ((∃ ppn, s' = { s with state := .resident ppn }) ∨
        ∃ errno, s' = { s with state := .error errno }) := by
  unfold completeFetch at h
  split_ifs at h with hgen hstate
  · cases h
  refine ⟨not_not.mp hgen, not_not.mp hstate, ?_⟩
  rcases result with errno | ppn
  · exact .inr ⟨errno, (Except.ok.inj h).symm⟩
  · exact .inl ⟨ppn, (Except.ok.inj h).symm⟩

lemma completeFetch_spec {result : Except Errno Ppn}
    (h : s.completeFetch generation result = .ok s') : s'.Sound ∧ ¬ s.Holds g := by
  obtain ⟨-, hs, ⟨ppn, rfl⟩ | ⟨errno, rfl⟩⟩ := completeFetch_eq_ok h <;>
    exact ⟨sound_of_ne_writeback (by simp), by simp [Holds, hs]⟩

lemma markDirty_eq_ok (h : s.markDirty = .ok s') :
    (∃ ppn, (s.state = .resident ppn ∨ s.state = .dirty ppn) ∧
        s' = ⟨.dirty ppn, s.nextGeneration⟩) ∨
      ∃ ppn submitted redirtied, s.state = .writeback ppn submitted redirtied ∧
        s' = ⟨.writeback ppn submitted true, s.nextGeneration⟩ := by
  unfold markDirty at h
  rcases hs : s.state with _ | ppn | _ | ppn | ⟨ppn, submitted, redirtied⟩ | errno <;>
    simp only [hs, notFetching, Except.ok.injEq, reduceCtorEq] at h <;> subst h
  · exact .inl ⟨ppn, .inl rfl, rfl⟩
  · exact .inl ⟨ppn, .inr rfl, rfl⟩
  · exact .inr ⟨ppn, submitted, redirtied, rfl, rfl⟩

lemma markDirty_spec (hsound : s.Sound) (hwrap : s.generation + 1 < 2 ^ 64)
    (h : s.markDirty = .ok s') :
    s'.Sound ∧ (s.Holds g → (∀ ppn, s.state ≠ .dirty ppn) → s'.Holds g) := by
  have hnext := nextGeneration_of_lt hwrap
  rcases markDirty_eq_ok h with ⟨ppn, hs, rfl⟩ | ⟨ppn, submitted, redirtied, hs, rfl⟩
  · refine ⟨sound_of_ne_writeback (by simp), fun hg hd => ?_⟩
    simp [Holds, hs.resolve_right (hd ppn)] at hg
  have hsub := (hsound ppn submitted redirtied hs).1
  refine ⟨?_, fun hg _ => ?_⟩
  · intro ppn' submitted' redirtied' hs'
    obtain ⟨rfl, rfl, rfl⟩ := PageSlotState.writeback.inj hs'
    exact ⟨by simp only [hnext]; omega, by simp⟩
  · simp only [Holds, hs, hnext] at hg ⊢
    omega

lemma beginWriteback_eq_ok (h : s.beginWriteback = .ok s') :
    ∃ ppn, (s.state = .resident ppn ∨ s.state = .dirty ppn) ∧
      s' = { s with state := .writeback ppn s.generation false } := by
  unfold beginWriteback at h
  rcases hs : s.state with _ | ppn | _ | ppn | ⟨ppn, submitted, redirtied⟩ | errno <;>
    simp only [hs, notFetching, Except.ok.injEq, reduceCtorEq] at h <;> subst h
  · exact ⟨ppn, .inl rfl, rfl⟩
  · exact ⟨ppn, .inr rfl, rfl⟩

lemma beginWriteback_spec (h : s.beginWriteback = .ok s') :
    s'.Sound ∧ (s.Holds g → s'.Holds g) := by
  obtain ⟨ppn, hs, rfl⟩ := beginWriteback_eq_ok h
  refine ⟨fun ppn' submitted' redirtied' hs' => ?_, fun hg => ?_⟩
  · obtain ⟨rfl, rfl, rfl⟩ := PageSlotState.writeback.inj hs'
    exact ⟨Nat.le_refl _, fun _ => rfl⟩
  · rcases hs with hs | hs <;> simp only [Holds, hs] at hg ⊢
    omega

lemma completeWriteback_eq_ok {result : Except Errno Unit}
    (h : s.completeWriteback generation result = .ok s') :
    (∃ ppn, s.state = .writeback ppn generation true ∧ s' = { s with state := .dirty ppn }) ∨
      ∃ ppn, s.state = .writeback ppn generation false ∧
        (result = .ok () ∧ s' = { s with state := .resident ppn } ∨
          ∃ errno, result = .error errno ∧ s' = { s with state := .error errno }) := by
  unfold completeWriteback at h
  rcases hs : s.state with _ | ppn | _ | ppn | ⟨ppn, submitted, redirtied⟩ | errno <;>
    simp only [hs, notFetching, reduceCtorEq] at h
  split_ifs at h with hgen hred
  · obtain rfl := not_not.mp hgen
    exact .inl ⟨ppn, by rw [hred], (Except.ok.inj h).symm⟩
  obtain rfl := not_not.mp hgen
  refine .inr ⟨ppn, by rw [eq_false_of_ne_true hred], ?_⟩
  rcases result with errno | ⟨⟩
  · exact .inr ⟨errno, rfl, (Except.ok.inj h).symm⟩
  · exact .inl ⟨rfl, (Except.ok.inj h).symm⟩

lemma abortWriteback_eq_ok (h : s.abortWriteback generation = .ok s') :
    ∃ ppn redirtied, s.state = .writeback ppn generation redirtied ∧
      s' = { s with state := .dirty ppn } := by
  unfold abortWriteback at h
  rcases hs : s.state with _ | ppn | _ | ppn | ⟨ppn, submitted, redirtied⟩ | errno <;>
    simp only [hs, notFetching, reduceCtorEq] at h
  split_ifs at h with hgen
  obtain rfl := not_not.mp hgen
  exact ⟨ppn, redirtied, rfl, (Except.ok.inj h).symm⟩

lemma replaceIfMatches_eq_ok {replacement : Ppn}
    (h : s.replaceIfMatches generation ppn replacement = .ok s') :
    s.state = .resident ppn ∧ s' = ⟨.resident replacement, s.nextGeneration⟩ ∨
      s.state = .dirty ppn ∧ s' = ⟨.dirty replacement, s.nextGeneration⟩ := by
  unfold replaceIfMatches at h
  split_ifs at h
  split at h
  · rename_i p hs
    split_ifs at h with hp
    exact .inl ⟨hp ▸ hs, (Except.ok.inj h).symm⟩
  · rename_i p hs
    split_ifs at h with hp
    exact .inr ⟨hp ▸ hs, (Except.ok.inj h).symm⟩
  · cases h

lemma withdrawIfMatches_eq_ok (h : s.withdrawIfMatches generation ppn = .ok s') :
    s' = s.invalidate := by
  unfold withdrawIfMatches at h
  split_ifs at h
  rcases hp : s.ppn? with _ | current
  · simp [hp, notFetching] at h
  simp only [hp] at h
  split_ifs at h
  exact (Except.ok.inj h).symm

end PageSlot

end TxKernel.PageBacked
