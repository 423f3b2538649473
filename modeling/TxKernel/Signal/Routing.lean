import Mathlib.Algebra.Ring.Nat
import Mathlib.Data.Fintype.Card
import Mathlib.Order.Bounds.Basic
import TxKernel.Library.Runs

/-!
Where a signal for a process goes: into the private queue of one thread, chosen when it is posted.
Which threads can still take it afterwards depends on that thread.
-/

namespace TxKernel.Signal

open Option Function

/-- A signal, by the position of its bit. -/
abbrev Signum := Fin 64

local instance Signum.neZero : NeZero 64 := ⟨Nat.succ_ne_zero 63⟩

abbrev Sigset := Finset Signum

/-- `SignalMask::new`: `SIGKILL` and `SIGSTOP` cannot be blocked. -/
def signalMask (bits : Sigset) : Sigset := bits \ {8, 18}

def lowestSignum (bits : Sigset) : Option Signum := (List.finRange 64).find? (· ∈ bits)

/-- The signal state of `ThreadPayload`, with the bits of its `InterruptSummary`. -/
structure Thread where
  mask : Sigset
  pending : Sigset
  groupSummary : Sigset
  deliverable : Bool
  termination : Bool
  stopRequested : Bool

inductive SigmaskHow where
  | setMask
  | block
  | unblock
deriving DecidableEq

/-- The new bits of `step_sigprocmask`. -/
def SigmaskHow.bits (how : SigmaskHow) (prev next : Sigset) : Sigset :=
  match how with
  | .setMask => next
  | .block => prev ∪ next
  | .unblock => prev \ next

/-- A process: its threads in the order of the snapshot, zombies without a payload. -/
structure Process where
  ids : List ℕ
  threads : ℕ → Option Thread
  group : Sigset
  ignored : Sigset

namespace Process

variable {p q : Process} {t u : ℕ} {sig : Signum}

def setThread (p : Process) (t : ℕ) (x : Thread) : Process :=
  { p with threads := update p.threads t (some x) }

/-- The thread of the list that gets a signal: the first that does not block it, or the first. -/
def chosen (p : Process) (sig : Signum) : Option ℕ :=
  let live := p.ids.filter fun t => (p.threads t).isSome
  (live.find? fun t => (p.threads t).all fun x => sig ∉ x.mask).or live.head?

/-- `step_kill_process_with_posts` for a catchable signal; `none` is `NoLiveThread`. -/
def killProcess (p : Process) (sig : Signum) : Option Process := do
  let t ← p.chosen sig
  let x ← p.threads t
  return p.setThread t
    { x with
      pending := insert sig x.pending, deliverable := x.deliverable || decide (sig ∉ x.mask) }

/-- `refresh_deliverable_signal_summary_with_payload`. -/
def refresh (x : Thread) : Thread :=
  { x with
    deliverable := decide ((x.pending \ x.mask).Nonempty) ||
      decide ((x.groupSummary \ x.mask).Nonempty) }

def sigprocmask (p : Process) (t : ℕ) (how : SigmaskHow) (next : Sigset) : Process :=
  match p.threads t with
  | none => p
  | some x =>
    let new := signalMask (how.bits x.mask next)
    if new = x.mask then p else p.setThread t (refresh { x with mask := new })

def exit (p : Process) (t : ℕ) : Process := { p with threads := update p.threads t none }

/-- `sync_group_pending_summaries`. -/
def syncAll (p : Process) : Process :=
  { p with threads := fun t => (p.threads t).map fun x =>
    refresh { x with groupSummary := p.group } }

/-- One turn of the loop of `ast_check`: the signal that is dequeued. -/
def dequeue (p : Process) (t : ℕ) (x : Thread) : Option (Signum × Process) :=
  match lowestSignum (x.pending \ x.mask) with
  | some sig => some (sig, p.setThread t (refresh { x with pending := x.pending.erase sig }))
  | none => (lowestSignum (p.group \ x.mask)).map fun sig =>
    (sig, { p with group := p.group.erase sig }.syncAll)

/-- The loop of `ast_check`: what was dequeued, in order. There are at most 128 bits to take. -/
def astLoop : ℕ → Process → ℕ → List Signum × Process
  | 0, p, _ => ([], p)
  | fuel + 1, p, t =>
    match p.threads t with
    | none => ([], p)
    | some x =>
      match p.dequeue t x with
      | none => ([], p)
      | some (sig, p') =>
        if sig ∈ p.ignored then
          let (sigs, p'') := astLoop fuel p' t
          (sig :: sigs, p'')
        else ([sig], p')

def astCheck (p : Process) (t : ℕ) : List Signum × Process :=
  match p.threads t with
  | none => ([], p)
  | some x =>
    if x.termination || !x.deliverable && !x.stopRequested then ([], p) else astLoop 129 p t

end Process

inductive Later where
  | sigprocmask (t : ℕ) (how : SigmaskHow) (next : Sigset)
  | exit (t : ℕ)
  | astCheck (t : ℕ)
deriving DecidableEq

namespace Process

variable {p q : Process} {k t u : ℕ} {sig : Signum}

def step (p : Process) : Later → Process × List Signum
  | .sigprocmask t how next => (p.sigprocmask t how next, [])
  | .exit t => (p.exit t, [])
  | .astCheck t => ((p.astCheck t).2, (p.astCheck t).1)

/-- The signal is there, and every thread that does not block it can select it. -/
def Selectable (p : Process) (sig : Signum) : Prop :=
  (∃ t x, p.threads t = some x ∧ (sig ∈ x.pending ∨ sig ∈ p.group)) ∧
    ∀ t x, p.threads t = some x → sig ∉ x.mask → sig ∈ x.pending ∨ sig ∈ p.group

/-- The threads `H` hold the signal, the group does if `g`, and threads outside `T` are being
terminated. -/
structure Held (p : Process) (sig : Signum) (T H : ℕ → Prop) (g : Prop) : Prop where
  group : sig ∈ p.group ↔ g
  pending : ∀ t x, p.threads t = some x → (sig ∈ x.pending ↔ H t)
  able : ∀ t x, p.threads t = some x → x.termination = false → T t

/-- Each time that the signal is dequeued it leaves the queue of the group or of a thread in `T`. -/
inductive Drains (sig : Signum) (T : ℕ → Prop) :
    (ℕ → Prop) → Prop → List Signum → (ℕ → Prop) → Prop → Prop where
  | nil {H g} : Drains sig T H g [] H g
  | other {H g sig' sigs H' g'} (hne : sig' ≠ sig) (h : Drains sig T H g sigs H' g') :
    Drains sig T H g (sig' :: sigs) H' g'
  | thread {H g t sigs H' g'} (hT : T t) (ht : H t)
      (h : Drains sig T (fun u => u ≠ t ∧ H u) g sigs H' g') : Drains sig T H g (sig :: sigs) H' g'
  | group {H sigs H' g'} (h : Drains sig T H False sigs H' g') :
    Drains sig T H True (sig :: sigs) H' g'

variable {T H H' K : ℕ → Prop} {g g' j : Prop} {sigs sigs' : List Signum}

lemma Drains.append (h : Drains sig T H g sigs H' g') (h' : Drains sig T H' g' sigs' K j) :
    Drains sig T H g (sigs ++ sigs') K j := by
  induction h with
  | nil => exact h'
  | other hne _ ih => exact .other hne (ih h')
  | thread hT ht _ ih => exact .thread hT ht (ih h')
  | group _ ih => exact .group (ih h')

lemma Drains.eq_of_notMem (h : Drains sig T H g sigs H' g') (hno : sig ∉ sigs) :
    H' = H ∧ g' = g := by
  induction h with
  | nil => exact ⟨rfl, rfl⟩
  | other _ _ ih => exact ih fun hmem => hno (List.mem_cons_of_mem _ hmem)
  | thread | group => simp at hno

lemma astLoop_inv {P : Process → Prop} (hturn : ∀ {p x s q}, P p → p.threads t = some x →
    p.dequeue t x = some (s, q) → P q) (fuel : ℕ) (h : P p) : P (p.astLoop fuel t).2 := by
  induction fuel generalizing p with
  | zero => exact h
  | succ fuel ih =>
    unfold astLoop
    rcases hx : p.threads t with _ | x
    · exact h
    dsimp only
    rcases hd : p.dequeue t x with _ | r
    · exact h
    dsimp only
    split_ifs
    · exact ih (hturn h hx hd)
    · exact hturn h hx hd

lemma astCheck_inv {P : Process → Prop} (hturn : ∀ {p x s q}, P p → p.threads t = some x →
    p.dequeue t x = some (s, q) → P q) (h : P p) : P (p.astCheck t).2 := by
  unfold astCheck
  split
  · exact h
  split
  · exact h
  · exact astLoop_inv hturn 129 h

lemma isLeast_of_lowestSignum {bits : Sigset} (h : lowestSignum bits = some sig) :
    IsLeast (bits : Set Signum) sig := by
  obtain ⟨hin, before, after, heq, hbefore⟩ := List.find?_eq_some_iff_append.mp h
  refine ⟨by simpa using hin, fun s hs => ?_⟩
  have hmem : s ∈ before ++ sig :: after := heq ▸ List.mem_finRange s
  rcases List.mem_append.mp hmem with hmem | hmem
  · simpa [Finset.mem_coe.mp hs] using hbefore s hmem
  rcases List.mem_cons.mp hmem with rfl | hmem
  · rfl
  have hsorted := heq ▸ List.pairwise_lt_finRange 64
  exact (List.rel_of_pairwise_cons (List.pairwise_append.mp hsorted).2.1 hmem).le

lemma lowestSignum_eq_none {bits : Sigset} : lowestSignum bits = none ↔ bits = ∅ := by
  simp [lowestSignum, Finset.eq_empty_iff_forall_notMem]

lemma dequeue_cases {x : Thread} (hd : p.dequeue t x = some (sig, q)) :
    IsLeast (↑(x.pending \ x.mask) : Set Signum) sig ∧
        q = p.setThread t (refresh { x with pending := x.pending.erase sig }) ∨
      x.pending \ x.mask = ∅ ∧ IsLeast (↑(p.group \ x.mask) : Set Signum) sig ∧
        q = { p with group := p.group.erase sig }.syncAll := by
  unfold Process.dequeue at hd
  split at hd
  · rename_i s hs
    cases hd
    exact .inl ⟨isLeast_of_lowestSignum hs, rfl⟩
  rename_i hnone
  obtain ⟨s, hs, he⟩ := map_eq_some_iff.1 hd
  cases he
  exact .inr ⟨lowestSignum_eq_none.1 hnone, isLeast_of_lowestSignum hs, rfl⟩

lemma threads_setThread {y z : Thread} (hz : (p.setThread t y).threads u = some z) :
    u = t ∧ y = z ∨ u ≠ t ∧ p.threads u = some z := by
  by_cases hu : u = t
  · exact .inl ⟨hu, by simpa [setThread, hu] using hz⟩
  · exact .inr ⟨hu, by simpa only [setThread, update_of_ne hu] using hz⟩

lemma threads_exit {x : Thread} (hx : (p.exit t).threads u = some x) : p.threads u = some x := by
  by_cases hu : u = t
  · simp [exit, hu] at hx
  · simpa only [exit, update_of_ne hu] using hx

section

variable (h : p.Held sig T H g) {x : Thread}
include h

lemma Held.setThread {y : Thread} (hx : p.threads t = some x)
    (hy : sig ∈ y.pending ↔ sig ∈ x.pending) (hterm : y.termination = x.termination) :
    (p.setThread t y).Held sig T H g := by
  refine ⟨h.group, fun u z hz => ?_, fun u z hz => ?_⟩ <;>
    rcases threads_setThread hz with ⟨rfl, rfl⟩ | ⟨-, hz⟩
  · rw [hy]
    exact h.pending u x hx
  · exact h.pending u z hz
  · rw [hterm]
    exact h.able u x hx
  · exact h.able u z hz

lemma Held.dequeue (hT : T t) (hx : p.threads t = some x) {sig' : Signum}
    (hd : p.dequeue t x = some (sig', q)) :
    ∃ H' g', q.Held sig T H' g' ∧ Drains sig T H g [sig'] H' g' := by
  rcases dequeue_cases hd with ⟨hleast, rfl⟩ | ⟨-, hleast, rfl⟩
  · have hset := h.setThread hx (y := refresh { x with pending := x.pending.erase sig' })
    by_cases hne : sig' ≠ sig
    · exact ⟨H, g, hset (by simp [refresh, hne.symm]) rfl, .other hne .nil⟩
    obtain rfl := not_not.1 hne
    have ht : H t := (h.pending t x hx).1 (Finset.mem_sdiff.1 hleast.1).1
    refine ⟨_, g, ⟨h.group, fun u y hy => ?_, fun u y hy => ?_⟩, .thread hT ht .nil⟩ <;>
      rcases threads_setThread hy with ⟨rfl, rfl⟩ | ⟨hu, hy⟩
    · simp [refresh]
    · simp [hu, h.pending u y hy]
    · exact fun _ => hT
    · exact h.able u y hy
  · have hthreads (u : ℕ) (y : Thread)
        (hy : (syncAll { p with group := p.group.erase sig' }).threads u = some y) :
        (sig ∈ y.pending ↔ H u) ∧ (y.termination = false → T u) := by
      obtain ⟨z, hz, rfl⟩ := map_eq_some_iff.1 hy
      exact ⟨h.pending u z hz, h.able u z hz⟩
    have hheld {g' : Prop} (hg' : sig ∈ p.group.erase sig' ↔ g') :
        (syncAll { p with group := p.group.erase sig' }).Held sig T H g' :=
      ⟨hg', fun u y hy => (hthreads u y hy).1, fun u y hy => (hthreads u y hy).2⟩
    by_cases hne : sig' ≠ sig
    · exact ⟨H, g, hheld (by simpa [hne.symm] using h.group), .other hne .nil⟩
    obtain rfl := not_not.1 hne
    obtain rfl := eq_true (h.group.1 (Finset.mem_sdiff.1 hleast.1).1)
    exact ⟨H, False, hheld (by simp), .group .nil⟩

lemma Held.astLoop (hT : T t) (fuel : ℕ) : ∃ H' g', (p.astLoop fuel t).2.Held sig T H' g' ∧
    Drains sig T H g (p.astLoop fuel t).1 H' g' := by
  induction fuel generalizing p H g with
  | zero => exact ⟨H, g, h, .nil⟩
  | succ fuel ih =>
    unfold Process.astLoop
    rcases hx : p.threads t with _ | x
    · exact ⟨H, g, h, .nil⟩
    dsimp only
    rcases hd : p.dequeue t x with _ | r
    · exact ⟨H, g, h, .nil⟩
    obtain ⟨H', g', h', hdrains⟩ := h.dequeue hT hx hd
    dsimp only
    split_ifs
    · obtain ⟨K, j, hK, hrest⟩ := ih h'
      exact ⟨K, j, hK, hdrains.append hrest⟩
    · exact ⟨H', g', h', hdrains⟩

lemma Held.step (a : Later) :
    ∃ H' g', (p.step a).1.Held sig T H' g' ∧ Drains sig T H g (p.step a).2 H' g' := by
  cases a with
  | sigprocmask t how next =>
    refine ⟨H, g, ?_, .nil⟩
    simp only [Process.step, Process.sigprocmask]
    split
    · exact h
    rename_i x hx
    split
    · exact h
    · exact h.setThread hx Iff.rfl rfl
  | exit t =>
    exact ⟨H, g, ⟨h.group, fun u x hx => h.pending u x (threads_exit hx),
      fun u x hx => h.able u x (threads_exit hx)⟩, .nil⟩
  | astCheck t =>
    simp only [Process.step, Process.astCheck]
    split
    · exact ⟨H, g, h, .nil⟩
    rename_i x hx
    split_ifs with hidle
    · exact ⟨H, g, h, .nil⟩
    · exact h.astLoop (h.able t x hx (by simp_all)) 129

lemma Held.run (as : List Later) : ∃ H' g', (Runs.runSpec Process.step p as).1.Held sig T H' g' ∧
    Drains sig T H g (Runs.runSpec Process.step p as).2.flatten H' g' := by
  induction as generalizing p H g with
  | nil => exact ⟨H, g, h, .nil⟩
  | cons a as ih =>
    obtain ⟨H', g', h', hdrains⟩ := h.step a
    obtain ⟨K, j, hK, hrest⟩ := ih h'
    exact ⟨K, j, hK, hdrains.append hrest⟩

end

/-- The thread that was chosen for the signal, or one that had it before. -/
def Holder (p : Process) (sig : Signum) (t : ℕ) : Prop :=
  p.chosen sig = some t ∨ ∃ x, p.threads t = some x ∧ sig ∈ x.pending

lemma killProcess_eq (hkill : p.killProcess sig = some q) :
    ∃ k x, p.chosen sig = some k ∧ p.threads k = some x ∧ q = p.setThread k
      { x with pending := insert sig x.pending,
               deliverable := x.deliverable || decide (sig ∉ x.mask) } := by
  simp only [killProcess, bind_eq_bind, bind_eq_some_iff, pure_def, some.injEq] at hkill
  obtain ⟨k, hk, x, hx, rfl⟩ := hkill
  exact ⟨k, x, hk, hx, rfl⟩

lemma held_kill (hkill : p.killProcess sig = some q)
    (hT : ∀ t x, p.threads t = some x → x.termination = false → T t) :
    q.Held sig T (p.Holder sig) (sig ∈ p.group) := by
  obtain ⟨k, x, hk, hx, rfl⟩ := killProcess_eq hkill
  refine ⟨Iff.rfl, fun t y hy => ?_, fun t y hy => ?_⟩ <;>
    rcases threads_setThread hy with ⟨rfl, rfl⟩ | ⟨ht, hy⟩
  · exact iff_of_true (Finset.mem_insert_self _ _) (.inl hk)
  · simp [Holder, hk, hy, Ne.symm ht]
  · exact hT t x hx
  · exact hT t y hy

/-! ### Masks and exits -/

/-- The mask of thread `t` after one more operation. -/
def maskStep (t : ℕ) (mask : Sigset) : Later → Sigset
  | .sigprocmask u how next => if u = t then signalMask (how.bits mask next) else mask
  | .exit _ | .astCheck _ => mask

def masks (p : Process) (t : ℕ) : Option Sigset := (p.threads t).map (·.mask)

lemma masks_setThread {x y : Thread} (hx : p.threads t = some x) (hmask : y.mask = x.mask) :
    (p.setThread t y).masks = p.masks := by
  funext u
  by_cases hu : u = t
  · simp [masks, setThread, hu, hx, hmask]
  · simp [masks, setThread, update_of_ne hu]

lemma masks_syncAll (p : Process) : p.syncAll.masks = p.masks := by
  funext u
  simp only [masks, syncAll, Option.map_map]
  rfl

lemma masks_astCheck (p : Process) (t : ℕ) : (p.astCheck t).2.masks = p.masks := by
  refine astCheck_inv (P := fun q => q.masks = p.masks) (fun h hx hd => h ▸ ?_) rfl
  rcases dequeue_cases hd with ⟨-, rfl⟩ | ⟨-, -, rfl⟩
  · exact masks_setThread hx rfl
  · exact masks_syncAll _

lemma masks_step (a : Later) : (p.step a).1.masks t =
    if a = .exit t then none else (p.masks t).map fun mask => maskStep t mask a := by
  cases a with
  | sigprocmask u how next =>
    by_cases hu : u = t
    · subst hu
      simp only [step, sigprocmask, masks]
      split
      · simp [*]
      rename_i x hx
      split_ifs with hsame <;> simp_all [maskStep, setThread, refresh]
    · have hsame : (p.sigprocmask u how next).masks t = p.masks t := by
        simp only [sigprocmask, masks]
        split
        · rfl
        split
        · rfl
        · simp [setThread, Ne.symm hu]
      simp [step, hsame, maskStep, hu]
  | exit u =>
    by_cases hu : u = t
    · simp [step, masks, exit, hu]
    · have hsame : (p.exit u).masks t = p.masks t := by simp [masks, exit, Ne.symm hu]
      simp [step, hsame, hu, maskStep]
  | astCheck u => simp [step, masks_astCheck, maskStep]

lemma masks_run (as : List Later) : (Runs.runSpec step p as).1.masks t =
    if .exit t ∈ as then none else (p.masks t).map fun mask => as.foldl (maskStep t) mask := by
  induction as generalizing p with
  | nil => simp [Runs.runSpec]
  | cons a as ih =>
    refine ih.trans ?_
    rw [masks_step]
    by_cases ha : a = .exit t
    · simp [ha]
    · simp [ha, Ne.symm ha, Function.comp_def]

lemma masks_kill (hkill : p.killProcess sig = some q) : q.masks = p.masks := by
  obtain ⟨k, x, -, hx, rfl⟩ := killProcess_eq hkill
  exact masks_setThread hx rfl

lemma threads_run_iff (hkill : p.killProcess sig = some q) (as : List Later) (t : ℕ) (m : Sigset) :
    (∃ y, (Runs.runSpec step q as).1.threads t = some y ∧ y.mask = m) ↔
      ∃ x, p.threads t = some x ∧ .exit t ∉ as ∧ as.foldl (maskStep t) x.mask = m := by
  have hmasks : (Runs.runSpec step q as).1.masks t = some m ↔ _ := map_eq_some_iff
  rw [← hmasks, masks_run, masks_kill hkill, masks]
  by_cases he : Later.exit t ∈ as <;> simp [he]

/-! ### The next check -/

/-- The summary of every thread shows at least what it can take. -/
def Summarised (p : Process) : Prop :=
  ∀ t x, p.threads t = some x → p.group ⊆ x.groupSummary ∧
    (x.deliverable = false → x.pending ⊆ x.mask ∧ x.groupSummary ⊆ x.mask)

lemma deliverable_refresh {x : Thread} (h : (refresh x).deliverable = false) :
    x.pending ⊆ x.mask ∧ x.groupSummary ⊆ x.mask := by
  simpa [refresh, Finset.not_nonempty_iff_eq_empty] using h

lemma Summarised.setThread (h : p.Summarised) {x : Thread}
    (hx : p.group ⊆ x.groupSummary ∧
      (x.deliverable = false → x.pending ⊆ x.mask ∧ x.groupSummary ⊆ x.mask)) :
    (p.setThread t x).Summarised := by
  intro u y hy
  rcases threads_setThread hy with ⟨-, rfl⟩ | ⟨-, hy⟩
  · exact hx
  · exact h u y hy

lemma summarised_syncAll (p : Process) : p.syncAll.Summarised := by
  intro u y hy
  obtain ⟨x, -, rfl⟩ := map_eq_some_iff.1 hy
  exact ⟨subset_rfl, deliverable_refresh⟩

lemma Summarised.kill (h : p.Summarised) (hkill : p.killProcess sig = some q) :
    q.Summarised := by
  obtain ⟨k, x, -, hx, rfl⟩ := killProcess_eq hkill
  refine h.setThread ⟨(h k x hx).1, fun hd => ?_⟩
  simp only [Bool.or_eq_false_iff, decide_eq_false_iff_not, not_not] at hd
  have hs := (h k x hx).2 hd.1
  exact ⟨Finset.insert_subset hd.2 hs.1, hs.2⟩

lemma Summarised.dequeue (h : p.Summarised) {x : Thread} (hx : p.threads t = some x)
    (hd : p.dequeue t x = some (sig, q)) : q.Summarised := by
  rcases dequeue_cases hd with ⟨-, rfl⟩ | ⟨-, -, rfl⟩
  · exact h.setThread ⟨(h t x hx).1, deliverable_refresh⟩
  · exact summarised_syncAll _

lemma Summarised.step (h : p.Summarised) (a : Later) : (p.step a).1.Summarised := by
  cases a with
  | sigprocmask t how next =>
    simp only [Process.step, sigprocmask]
    split
    · exact h
    rename_i x hx
    split
    · exact h
    · exact h.setThread ⟨(h t x hx).1, deliverable_refresh⟩
  | exit t => exact fun u x hx => h u x (threads_exit hx)
  | astCheck t => exact astCheck_inv (fun h hx hd => h.dequeue hx hd) h

/-- The thread takes `s` before `sig`: its own queue comes first, and the lower signal in each. -/
def Before (p : Process) (x : Thread) (sig s : Signum) : Prop :=
  s ∉ x.mask ∧ (s ∈ x.pending ∧ (sig ∈ x.pending → s < sig) ∨
    sig ∉ x.pending ∧ s ∈ p.group ∧ s < sig)

def room (p : Process) (x : Thread) : ℕ := (x.pending \ x.mask).card + (p.group \ x.mask).card

lemma room_lt (p : Process) (x : Thread) : p.room x < 129 := by
  have h1 := Finset.card_le_univ (x.pending \ x.mask)
  have h2 := Finset.card_le_univ (p.group \ x.mask)
  simp only [Fintype.card_fin] at h1 h2
  unfold room
  omega

lemma card_erase_sdiff_lt {bits mask : Sigset} (h : sig ∈ bits \ mask) :
    (bits.erase sig \ mask).card < (bits \ mask).card := by
  rw [Finset.erase_sdiff_comm]
  exact Finset.card_erase_lt_of_mem h

/-- What a turn of the loop leaves to take. -/
lemma exists_dequeue (sig : Signum) {x : Thread} {s : Signum} (hx : p.threads t = some x)
    (hd : p.dequeue t x = some (s, q)) :
    q.ignored = p.ignored ∧ ∃ y, q.threads t = some y ∧ y.mask = x.mask ∧
      y.termination = x.termination ∧ q.room y < p.room x ∧
      (sig ∉ x.mask → sig ∈ x.pending ∨ sig ∈ p.group →
        (s = sig → ∀ r, ¬ p.Before x sig r) ∧
        (s ≠ sig → (sig ∈ y.pending ∨ sig ∈ q.group) ∧
          ∀ r, p.Before x sig r ↔ r = s ∨ q.Before y sig r)) := by
  rcases dequeue_cases hd with ⟨hleast, rfl⟩ | ⟨hempty, hleast, rfl⟩
  · have hs := Finset.mem_sdiff.1 hleast.1
    refine ⟨rfl, _, update_self .., rfl, rfl, Nat.add_lt_add_right (card_erase_sdiff_lt hleast.1) _,
      fun hmask hin => ⟨?_, fun hne => ⟨?_, fun r => ?_⟩⟩⟩
    · rintro rfl r ⟨hr, ⟨hrin, hlt⟩ | ⟨hno, -⟩⟩
      · exact (hlt hs.1).not_ge (hleast.2 (Finset.mem_sdiff.2 ⟨hrin, hr⟩))
      · exact hno hs.1
    · exact hin.imp_left fun h => Finset.mem_erase.2 ⟨hne.symm, h⟩
    · have hlt (h : sig ∈ x.pending) : s < sig :=
        lt_of_le_of_ne (hleast.2 (Finset.mem_sdiff.2 ⟨h, hmask⟩)) hne
      by_cases hr : r = s
      · subst hr
        exact iff_of_true ⟨hs.2, .inl ⟨hs.1, hlt⟩⟩ (.inl rfl)
      · simp [Before, refresh, Process.setThread, hr, hne.symm]
  · have hs := Finset.mem_sdiff.1 hleast.1
    have hno {r : Signum} (hr : r ∉ x.mask) : r ∉ x.pending := fun h => by
      simpa [hempty] using Finset.mem_sdiff.2 ⟨h, hr⟩
    refine ⟨rfl, refresh { x with groupSummary := p.group.erase s }, by simp [syncAll, hx], rfl,
      rfl, Nat.add_lt_add_left (card_erase_sdiff_lt hleast.1) _, fun hmask hin => ?_⟩
    have hgroup : sig ∈ p.group := hin.resolve_left (hno hmask)
    refine ⟨?_, fun hne => ⟨?_, fun r => ?_⟩⟩
    · rintro rfl r ⟨hr, ⟨hrin, -⟩ | ⟨-, hrin, hlt⟩⟩
      · exact hno hr hrin
      · exact hlt.not_ge (hleast.2 (Finset.mem_sdiff.2 ⟨hrin, hr⟩))
    · exact .inr (Finset.mem_erase.2 ⟨hne.symm, hgroup⟩)
    · have hlt : s < sig := lt_of_le_of_ne (hleast.2 (Finset.mem_sdiff.2 ⟨hgroup, hmask⟩)) hne
      by_cases hr : r = s
      · subst hr
        exact iff_of_true ⟨hs.2, .inr ⟨hno hmask, hs.1, hlt⟩⟩ (.inl rfl)
      · simp [Before, refresh, syncAll, hr]

lemma exists_of_unblocked {x : Thread} (hmask : sig ∉ x.mask)
    (hin : sig ∈ x.pending ∨ sig ∈ p.group) : ∃ s q, p.dequeue t x = some (s, q) := by
  unfold Process.dequeue
  rcases hl : lowestSignum (x.pending \ x.mask) with _ | s
  · rcases hg : lowestSignum (p.group \ x.mask) with _ | s
    · rw [lowestSignum_eq_none] at hl hg
      rcases hin with hin | hin
      · simpa [hl] using Finset.mem_sdiff.2 ⟨hin, hmask⟩
      · simpa [hg] using Finset.mem_sdiff.2 ⟨hin, hmask⟩
    · exact ⟨s, _, rfl⟩
  · exact ⟨s, _, rfl⟩

lemma mem_astLoop_iff {fuel : ℕ} {x : Thread} (hx : p.threads t = some x) (hmask : sig ∉ x.mask)
    (hin : sig ∈ x.pending ∨ sig ∈ p.group) (hfuel : p.room x < fuel) :
    sig ∈ (p.astLoop fuel t).1 ↔ ∀ s, p.Before x sig s → s ∈ p.ignored := by
  induction fuel generalizing p x with
  | zero => omega
  | succ fuel ih =>
    obtain ⟨s, q, hd⟩ := exists_of_unblocked (t := t) hmask hin
    obtain ⟨hig, y, hy, hymask, -, hroom, hwhen⟩ := exists_dequeue sig hx hd
    obtain ⟨htaken, hrest⟩ := hwhen hmask hin
    unfold astLoop
    rw [hx]
    simp only [hd]
    by_cases hne : s = sig
    · refine iff_of_true ?_ fun r hr => absurd hr (htaken hne r)
      split_ifs <;> simp [hne]
    obtain ⟨hin', hbefore⟩ := hrest hne
    simp only [hbefore, forall_eq_or_imp]
    split_ifs with his
    · simp only [List.mem_cons, Ne.symm hne, false_or, his, true_and]
      rw [ih hy (hymask ▸ hmask) hin' (by omega), hig]
    · simp [his, Ne.symm hne]

lemma Summarised.astCheck_eq (h : p.Summarised) {x : Thread} (hx : p.threads t = some x)
    (hmask : sig ∉ x.mask) (hin : sig ∈ x.pending ∨ sig ∈ p.group) :
    p.astCheck t = if x.termination then ([], p) else p.astLoop 129 t := by
  obtain ⟨hgroup, hdeliv⟩ := h t x hx
  have hready : x.deliverable = true := by
    by_contra hc
    obtain ⟨h1, h2⟩ := hdeliv (by simpa using hc)
    rcases hin with hin | hin
    · exact hmask (h1 hin)
    · exact hmask (h2 (hgroup hin))
  simp [astCheck, hx, hready]

/-- **Where the signal can be taken.** Every thread that does not block it can select it if and only
if a thread is left that holds it (or the group does), and so does every thread that is left and
whose mask does not have it in the end. A thread that can select the signal takes it at its next
check if and only if it is not being terminated and all signals that it takes before are ignored. -/
theorem kill_selectable_iff {p p' : Process} {sig : Signum} (hsum : p.Summarised)
    (hkill : p.killProcess sig = some p') (as : List Later)
    (hno : ∀ sigs ∈ (Runs.runSpec step p' as).2, sig ∉ sigs) :
    let s := (Runs.runSpec step p' as).1
    (s.Selectable sig ↔
      (∃ t, (p.threads t).isSome = true ∧ .exit t ∉ as ∧ (p.Holder sig t ∨ sig ∈ p.group)) ∧
      ∀ t x, p.threads t = some x → .exit t ∉ as → sig ∉ as.foldl (maskStep t) x.mask →
        p.Holder sig t ∨ sig ∈ p.group) ∧
    ∀ t x, s.threads t = some x → sig ∉ x.mask → sig ∈ x.pending ∨ sig ∈ s.group →
      (sig ∈ (s.astCheck t).1 ↔
        x.termination = false ∧ ∀ r, s.Before x sig r → r ∈ s.ignored) := by
  intro s
  have hsums : s.Summarised :=
    Runs.invariant_total Summarised (fun _ a h => h.step a) as (hsum.kill hkill)
  refine ⟨?_, fun t x hx hmask hin => ?_⟩
  swap
  · rw [hsums.astCheck_eq hx hmask hin]
    cases x.termination with
    | true => simp
    | false => simpa using mem_astLoop_iff hx hmask hin (s.room_lt x)
  obtain ⟨H, g, hheld, hdrains⟩ :=
    (held_kill hkill (T := fun _ => True) fun _ _ _ _ => trivial).run as
  obtain ⟨rfl, rfl⟩ := hdrains.eq_of_notMem (by simpa using hno)
  have hleft := threads_run_iff hkill as
  have hsel {t : ℕ} {y : Thread} (hy : s.threads t = some y) :
      sig ∈ y.pending ∨ sig ∈ s.group ↔ p.Holder sig t ∨ sig ∈ p.group := by
    rw [hheld.pending t y hy, hheld.group]
  refine and_congr ⟨?_, ?_⟩ ⟨?_, ?_⟩
  · rintro ⟨t, y, hy, hin⟩
    obtain ⟨x, hx, he, -⟩ := (hleft t _).1 ⟨y, hy, rfl⟩
    exact ⟨t, by simp [hx], he, (hsel hy).1 hin⟩
  · rintro ⟨t, hlive, he, hin⟩
    obtain ⟨x, hx⟩ := isSome_iff_exists.1 hlive
    obtain ⟨y, hy, -⟩ := (hleft t _).2 ⟨x, hx, he, rfl⟩
    exact ⟨t, y, hy, (hsel hy).2 hin⟩
  · intro h t x hx he hmask
    obtain ⟨y, hy, hmask'⟩ := (hleft t _).2 ⟨x, hx, he, rfl⟩
    exact (hsel hy).1 (h t y hy (hmask' ▸ hmask))
  · intro h t y hy hmask
    obtain ⟨x, hx, he, hmask'⟩ := (hleft t _).1 ⟨y, hy, rfl⟩
    exact (hsel hy).2 (h t x hx he (hmask' ▸ hmask))

def blockers : Process where
  ids := [0, 1]
  threads := fun t => if t < 2 then some ⟨{3}, ∅, ∅, false, false, false⟩ else none
  group := ∅
  ignored := ∅

/-- The other thread goes, and the one that was chosen unblocks the signal and takes it. -/
theorem kill_selectable_chosenStays :
    ∃ p', blockers.killProcess 3 = some p' ∧
      let s := (Runs.runSpec step p' [.exit 1, .sigprocmask 0 .unblock {3}]).1
      s.Selectable 3 ∧ 3 ∈ (s.astCheck 0).1 := by
  have hsum : blockers.Summarised := by
    intro t x hx
    obtain ⟨-, rfl⟩ : t < 2 ∧ _ = x := by simpa [blockers] using hx
    simp [blockers]
  obtain ⟨hsel, htaken⟩ := kill_selectable_iff hsum
    (rfl : blockers.killProcess 3 = some _) [.exit 1, .sigprocmask 0 .unblock {3}] (by decide)
  refine ⟨_, rfl, hsel.2 ⟨⟨0, by decide, by decide, .inl (.inl (by decide))⟩,
    fun t x hx he _ => .inl (.inl ?_)⟩, ?_⟩
  · rcases t with _ | _ | t
    · decide
    · simp at he
    · cases hx
  · refine (htaken 0 _ rfl (by decide) (.inl (by decide))).2 ⟨rfl, fun r hr => ?_⟩
    rcases hr with ⟨-, ⟨hr, hlt⟩ | ⟨-, hr, -⟩⟩
    · have hr3 : r = 3 := Finset.mem_singleton.1 hr
      exact absurd (hlt (by decide)) (hr3 ▸ lt_irrefl _)
    · cases hr

/-- The chosen thread exits; the other one unblocks the signal and does not find it. -/
theorem signal_lost_with_thread :
    ∃ p', blockers.killProcess 3 = some p' ∧
      ¬ (Runs.runSpec step p' [.exit 0, .sigprocmask 1 .unblock {3}]).1.Selectable 3 := by
  refine ⟨_, rfl, fun h => ?_⟩
  exact absurd (h.2 1 _ rfl (by decide)) (by decide)

end Process

end TxKernel.Signal
