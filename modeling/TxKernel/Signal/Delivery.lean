import TxKernel.Signal.Routing

/-!
How often a signal is taken, and which waits it ends. A signal for a process group goes into two
queues of each member. The tests that end a wait look only at the signal that is selected next.
-/

namespace TxKernel.Signal

open Option Function

namespace Process

variable {p q : Process} {sig : Signum} {k : ℕ} {as : List Later}

def postGroupPending (p : Process) (sig : Signum) : Process :=
  { p with group := insert sig p.group }.syncAll

/-- `step_kill_pgrp_with_posts_dyn` for a catchable signal. -/
def killPgrp (members : List Process) (sig : Signum) : List Process :=
  members.map fun p => (p.killProcess sig).elim p (·.postGroupPending sig)

variable {T H H' : ℕ → Prop} {g g' : Prop} {sigs : List Signum}

/-- Of the threads in `T` only `k` may hold the signal, if `a`, and the group if `b`. -/
lemma Drains.count_le (h : Drains sig T H g sigs H' g') {a b : Bool}
    (ha : ∀ t, T t → H t → t = k ∧ a = true) (hb : g → b = true) :
    sigs.count sig ≤ a.toNat + b.toNat := by
  induction h generalizing a b with
  | nil => simp
  | other hne _ ih => simpa [hne] using ih ha hb
  | thread hT ht _ ih =>
    obtain ⟨rfl, rfl⟩ := ha _ hT ht
    have := ih (a := false) (fun u hu hH => absurd (ha u hu hH.2).1 hH.1) hb
    simp only [List.count_cons_self, Bool.toNat_true, Bool.toNat_false] at this ⊢
    omega
  | group _ ih =>
    obtain rfl := hb trivial
    have := ih (b := false) ha (by simp)
    simp only [List.count_cons_self, Bool.toNat_true, Bool.toNat_false] at this ⊢
    omega

/-- What has left the queues of `k` and of the group was dequeued. -/
lemma Drains.le_count (h : Drains sig T H g sigs H' g') {a b : Bool} (ha : a = true → H k ∧ ¬ H' k)
    (hb : b = true → g ∧ ¬ g') : a.toNat + b.toNat ≤ sigs.count sig := by
  induction h generalizing a b with
  | nil => cases a <;> cases b <;> simp_all
  | other hne _ ih => simpa [hne] using ih ha hb
  | @thread H g t sigs H' g' hT ht _ ih =>
    by_cases htk : t = k
    · have := ih (a := false) (by simp) hb
      rw [List.count_cons_self]
      cases a <;> simp only [Bool.toNat_true, Bool.toNat_false] at this ⊢ <;> omega
    · have := ih (fun h => ⟨⟨Ne.symm htk, (ha h).1⟩, (ha h).2⟩) hb
      rw [List.count_cons_self]
      omega
  | group _ ih =>
    have := ih (b := false) ha (by simp)
    rw [List.count_cons_self]
    cases b <;> simp only [Bool.toNat_true, Bool.toNat_false] at this ⊢ <;> omega

/-- Enough checks take all that the thread can take. -/
lemma exists_drained (h : p.Summarised) {x : Thread} (hx : p.threads k = some x)
    (hterm : x.termination = false) : ∃ n y,
      (Runs.runSpec step p (.replicate n (.astCheck k))).1.threads k = some y ∧ y.mask = x.mask ∧
      ∀ s, s ∉ x.mask → s ∉ y.pending ∧
        s ∉ (Runs.runSpec step p (.replicate n (.astCheck k))).1.group := by
  induction hr : p.room x using Nat.strong_induction_on generalizing p x with
  | _ r ih =>
    by_cases hdone : ∀ s, s ∉ x.mask → s ∉ x.pending ∧ s ∉ p.group
    · exact ⟨0, x, hx, rfl, hdone⟩
    obtain ⟨s, hmask, hin⟩ : ∃ s, s ∉ x.mask ∧ (s ∈ x.pending ∨ s ∈ p.group) := by
      simpa only [not_forall, exists_prop, not_and_or, not_not] using hdone
    have hcheck := h.astCheck_eq hx hmask hin
    -- the first turn takes a signal, and the turns behind it put none back
    obtain ⟨s', q, hd⟩ := exists_of_unblocked (t := k) hmask hin
    have hturn {p' : Process} {z : Thread} {s q' r} (hz : ∃ y, p'.threads k = some y ∧
        y.mask = x.mask ∧ y.termination = false ∧ p'.room y < r) (hz' : p'.threads k = some z)
        (hd : p'.dequeue k z = some (s, q')) : ∃ y, q'.threads k = some y ∧
        y.mask = x.mask ∧ y.termination = false ∧ q'.room y < r := by
      obtain ⟨y, hy, hm, ht, hlt⟩ := hz
      obtain rfl := some.inj (hz'.symm.trans hy)
      obtain ⟨-, y', hy', hm', ht', hlt', -⟩ := exists_dequeue s hz' hd
      exact ⟨y', hy', hm'.trans hm, ht'.trans ht, hlt'.trans hlt⟩
    have hfirst : ∃ y, q.threads k = some y ∧ y.mask = x.mask ∧ y.termination = false ∧
        q.room y < r := by
      obtain ⟨-, y, hy, hm, ht, hlt, -⟩ := exists_dequeue s hx hd
      exact ⟨y, hy, hm, ht.trans hterm, hr ▸ hlt⟩
    obtain ⟨y, hy, hymask, hyterm, hlt⟩ : ∃ y, (p.astCheck k).2.threads k = some y ∧
        y.mask = x.mask ∧ y.termination = false ∧ (p.astCheck k).2.room y < r := by
      rw [hcheck, hterm, if_neg Bool.false_ne_true]
      unfold astLoop
      simp only [hx, hd]
      split_ifs
      · exact astLoop_inv hturn 128 hfirst
      · exact hfirst
    obtain ⟨n, z, hz, hzmask, hdone⟩ := ih _ hlt (h.step (.astCheck k)) hy hyterm rfl
    exact ⟨n + 1, z, hz, hzmask.trans hymask, hymask ▸ hdone⟩

/-- The signal is in no queue. -/
def Fresh (p : Process) (sig : Signum) : Prop :=
  sig ∉ p.group ∧ ∀ t x, p.threads t = some x → sig ∉ x.pending

lemma Fresh.eq_of_holder (h : p.Fresh sig) (hk : p.chosen sig = some k) {t : ℕ}
    (ht : p.Holder sig t) : t = k := by
  rcases ht with ht | ⟨x, hx, hin⟩
  · exact some.inj (ht.symm.trans hk)
  · exact absurd hin (h.2 t x hx)

lemma held_pgrp (hkill : p.killProcess sig = some q)
    (hT : ∀ t x, p.threads t = some x → x.termination = false → T t) :
    (q.postGroupPending sig).Held sig T (p.Holder sig) True := by
  refine ⟨by simp [postGroupPending, syncAll], fun t x hx => ?_, fun t x hx => ?_⟩ <;>
    obtain ⟨y, hy, rfl⟩ := map_eq_some_iff.1 hx
  · exact (held_kill hkill hT).pending t y hy
  · exact (held_kill hkill hT).able t y hy

/-- A member whose chosen thread is not being terminated can take the signal twice. -/
lemma exists_twice {x : Thread} (hkill : p.killProcess sig = some q) (hk : p.chosen sig = some k)
    (hx : p.threads k = some x) (hterm : x.termination = false) :
    ∃ as, 2 ≤ (Runs.runSpec step (q.postGroupPending sig) as).2.flatten.count sig := by
  obtain ⟨k', x', hk', hx', rfl⟩ := killProcess_eq hkill
  obtain rfl := some.inj (hk.symm.trans hk')
  obtain rfl := some.inj (hx.symm.trans hx')
  set r := (p.setThread k _).postGroupPending sig with hr
  obtain ⟨y, hy, hyterm, hymask⟩ : ∃ y, (r.sigprocmask k .unblock {sig}).threads k = some y ∧
      y.termination = false ∧ sig ∉ y.mask := by
    have hrk : r.threads k = some (refresh { x with
        pending := insert sig x.pending, groupSummary := insert sig p.group,
        deliverable := x.deliverable || decide (sig ∉ x.mask) }) := by
      simp [hr, postGroupPending, syncAll, setThread]
    have hno : sig ∉ signalMask (x.mask \ {sig}) := by simp [signalMask]
    simp only [sigprocmask, hrk]
    split_ifs with hsame
    · exact ⟨_, hrk, hterm, hsame ▸ hno⟩
    · exact ⟨_, update_self .., hterm, hno⟩
  have hsum : (r.sigprocmask k .unblock {sig}).Summarised :=
    (summarised_syncAll _).step (.sigprocmask k .unblock {sig})
  obtain ⟨n, z, hz, -, hdone⟩ := exists_drained hsum hy hyterm
  obtain ⟨H, g, hheld, hdrains⟩ := (held_pgrp hkill (T := fun _ => True) fun _ _ _ _ => trivial).run
    (.sigprocmask k .unblock {sig} :: .replicate n (.astCheck k))
  refine ⟨_, hdrains.le_count (k := k) (a := true) (b := true) (fun _ => ⟨.inl hk, ?_⟩)
    fun _ => ⟨trivial, ?_⟩⟩
  · exact fun hH => (hdone sig hymask).1 ((hheld.pending k z hz).2 hH)
  · exact fun hg => (hdone sig hymask).2 (hheld.group.2 hg)

/-- **One signal for one process** is dequeued at most once. One for a process group is dequeued at
most twice by each member, and twice by some unless the thread that is chosen for it is being
terminated. -/
theorem kill_dequeued_at_most {p : Process} {sig : Signum} (h : p.Fresh sig) :
    (∀ as q, p.killProcess sig = some q → (Runs.runSpec step q as).2.flatten.count sig ≤ 1) ∧
      ∀ members (i : ℕ), members[i]? = some p → ∃ q, (killPgrp members sig)[i]? = some q ∧
        (∀ as, (Runs.runSpec step q as).2.flatten.count sig ≤ 2) ∧
        ((∀ as, (Runs.runSpec step q as).2.flatten.count sig ≤ 1) ↔
          ∀ k x, p.chosen sig = some k → p.threads k = some x → x.termination = true) := by
  refine ⟨fun as q hq => ?_, fun members i hi =>
    ⟨_, by rw [killPgrp, List.getElem?_map, hi, map_some], ?_⟩⟩
  · obtain ⟨k, -, hk, -⟩ := killProcess_eq hq
    obtain ⟨H, g, -, hdrains⟩ := (held_kill hq (T := fun _ => True) fun _ _ _ _ => trivial).run as
    exact hdrains.count_le (b := false) (fun t _ ht => ⟨h.eq_of_holder hk ht, rfl⟩)
      fun hg => absurd hg h.1
  rcases hq : p.killProcess sig with _ | q
  · have hzero (as : List Later) : (Runs.runSpec step p as).2.flatten.count sig ≤ 0 := by
      have hheld : p.Held sig (fun _ => True) (fun _ => False) False :=
        ⟨by simpa using h.1, fun t x hx => by simpa using h.2 t x hx, fun _ _ _ _ => trivial⟩
      obtain ⟨H, g, -, hdrains⟩ := hheld.run as
      exact hdrains.count_le (k := 0) (a := false) (b := false) (by simp) (by simp)
    refine ⟨fun as => (hzero as).trans (by omega),
      iff_of_true (fun as => (hzero as).trans (by omega)) fun k x hk hx => ?_⟩
    simp [killProcess, hk, hx] at hq
  obtain ⟨k, x, hk, hx, -⟩ := killProcess_eq hq
  refine ⟨fun as => ?_, fun hone k' x' hk' hx' => ?_, fun hterm as => ?_⟩
  · obtain ⟨H, g, -, hdrains⟩ := (held_pgrp hq (T := fun _ => True) fun _ _ _ _ => trivial).run as
    exact hdrains.count_le (b := true) (fun t _ ht => ⟨h.eq_of_holder hk ht, rfl⟩) fun _ => rfl
  · by_contra hc
    obtain ⟨as, htwo⟩ := exists_twice hq hk' hx' (by simpa using hc)
    exact absurd (htwo.trans (hone as)) (by omega)
  · -- the copy of the thread that is being terminated stays where it is
    obtain ⟨H, g, -, hdrains⟩ := (held_pgrp hq (T := (· ≠ k)) fun t y hy ht hk' => by
      subst hk'
      simp [hterm t y hk hy] at ht).run as
    exact hdrains.count_le (k := k) (a := false) (b := true)
      (fun t hne ht => absurd (h.eq_of_holder hk ht) hne) fun _ => rfl

def lone : Process :=
  ⟨[0], fun t => if t = 0 then some ⟨∅, ∅, ∅, false, false, false⟩ else none, ∅, ∅⟩

theorem kill_dequeued_at_most_lone :
    ∃ q, lone.killProcess 3 = some q ∧ (Runs.runSpec step q [.astCheck 0]).2 = [[3]] ∧
      (Runs.runSpec step q [.astCheck 0, .astCheck 0]).2.flatten.count 3 ≤ 1 := by
  have hfresh : lone.Fresh 3 := by
    refine ⟨by decide, fun t x hx => ?_⟩
    obtain ⟨-, rfl⟩ : t = 0 ∧ _ = x := by simpa [lone] using hx
    simp
  exact ⟨_, rfl, by decide, (kill_dequeued_at_most hfresh).1 _ _ rfl⟩

/-- The thread takes the signal from its own queue, and then from that of the process. -/
theorem group_signal_dequeued_twice :
    (killPgrp [lone] 3).map (fun q => (Runs.runSpec step q [.astCheck 0, .astCheck 0]).2) =
      [[[3], [3]]] := by decide

end Process

/-! ### Waits -/

inductive DefaultAction where
  | term
  | core
  | ignore
  | stop
  | cont
deriving DecidableEq

def defaultAction (sig : Signum) : DefaultAction :=
  match sig.val + 1 with
  | 1 | 2 | 9 | 13 | 15 => .term
  | 3 | 4 | 6 | 11 => .core
  | 17 | 23 | 28 => .ignore
  | 19 | 20 | 21 | 22 => .stop
  | 18 => .cont
  | _ => .term

inductive SigDisposition where
  | default
  | ignore
  | handler (address : ℕ)

/-- `SigActionEntry`, with `SA_RESTART` of its flags. -/
structure SigActionEntry where
  disposition : SigDisposition
  restart : Bool

namespace Process

variable (p : Process) (actions : Signum → SigActionEntry) (x : Thread)

def selectNextSignal : Option Signum :=
  (lowestSignum (x.pending \ x.mask)).or (lowestSignum (p.group \ x.mask))

def threadPendingSignalInterrupts : Bool :=
  match p.selectNextSignal x with
  | none => false
  | some sig =>
    match (actions sig).disposition with
    | .ignore => false
    | .default => defaultAction sig != .ignore
    | .handler _ => !(actions sig).restart || (sig.val + 1) ∈ [2, 32, 33]

def pendingSignalInterruptsWait : Bool :=
  if x.termination then true
  else if !x.deliverable then false
  else
    match p.selectNextSignal x with
    | none => false
    | some sig =>
      match (actions sig).disposition with
      | .handler _ => true
      | .default => defaultAction sig == .term || defaultAction sig == .core
      | .ignore => false

/-- The signal has a handler, or a default action other than to be ignored. -/
def Interrupting (sig : Signum) : Prop :=
  match (actions sig).disposition with
  | .handler _ => True
  | .default => defaultAction sig ≠ .ignore
  | .ignore => False

def unblocked : Sigset := (x.pending ∪ p.group) \ x.mask

def InterruptDue : Prop := ∃ sig ∈ p.unblocked x, Interrupting actions sig

/-- The lowest signal of the thread's own that it does not block, or else of the group's. -/
def First (sig : Signum) : Prop :=
  IsLeast (↑(x.pending \ x.mask) : Set Signum) sig ∨
    x.pending ⊆ x.mask ∧ IsLeast (↑(p.group \ x.mask) : Set Signum) sig

/-- The handler is one behind which the system call is to be restarted. -/
def Restarting (sig : Signum) : Prop :=
  (∃ address, (actions sig).disposition = .handler address) ∧ (actions sig).restart = true ∧
    sig.val + 1 ∉ [2, 32, 33]

/-- The default action stops or continues the process. -/
def JobControl (sig : Signum) : Prop :=
  (actions sig).disposition = .default ∧ (defaultAction sig = .stop ∨ defaultAction sig = .cont)

variable {p actions x}

lemma selectNextSignal_eq_some {sig : Signum} :
    p.selectNextSignal x = some sig ↔ p.First x sig := by
  have hleast {bits : Sigset} {s : Signum} :
      lowestSignum bits = some s ↔ IsLeast (bits : Set Signum) s := by
    refine ⟨isLeast_of_lowestSignum, fun h => ?_⟩
    rcases hl : lowestSignum bits with _ | s'
    · simpa [lowestSignum_eq_none.1 hl] using h.1
    · rw [(isLeast_of_lowestSignum hl).unique h]
  rw [selectNextSignal, or_eq_some_iff, hleast, hleast, lowestSignum_eq_none,
    Finset.sdiff_eq_empty_iff_subset, First]

lemma First.mem {sig : Signum} (h : p.First x sig) : sig ∈ p.unblocked x := by
  rcases h with h | ⟨-, h⟩ <;> have := h.1 <;> simp_all [unblocked]

lemma exists_first (h : (p.unblocked x).Nonempty) : ∃ sig, p.First x sig := by
  simp only [← selectNextSignal_eq_some, selectNextSignal, ← Option.isSome_iff_exists,
    Option.isSome_or, Bool.or_eq_true]
  by_contra hc
  simp only [not_or, Bool.not_eq_true, Option.isSome_eq_false_iff, Option.isNone_iff_eq_none,
    lowestSignum_eq_none] at hc
  simp [unblocked, Finset.union_sdiff_distrib, hc] at h

lemma asks_first_iff {L : Signum → Prop} (hL : ∀ sig, L sig → Interrupting actions sig) :
    ((∃ sig, p.First x sig ∧ Interrupting actions sig ∧ ¬ L sig) ↔ p.InterruptDue actions x) ↔
      ∀ sig, p.First x sig → ¬ L sig ∧
        (Interrupting actions sig ∨ ∀ s ∈ p.unblocked x, ¬ Interrupting actions s) := by
  have hunique {sig s : Signum} (h : p.First x sig) (h' : p.First x s) : sig = s :=
    some.inj ((selectNextSignal_eq_some.2 h).symm.trans (selectNextSignal_eq_some.2 h'))
  refine ⟨fun h sig hs => ⟨fun hl => ?_, ?_⟩, fun h => ⟨?_, ?_⟩⟩
  · obtain ⟨s, hs', -, hno⟩ := h.2 ⟨sig, hs.mem, hL sig hl⟩
    exact hno (hunique hs hs' ▸ hl)
  · refine or_iff_not_imp_right.2 fun hdue => ?_
    obtain ⟨s, hs', hi, -⟩ := h.2 (by simpa [InterruptDue] using hdue)
    rwa [hunique hs hs']
  · rintro ⟨sig, hs, hi, -⟩
    exact ⟨sig, hs.mem, hi⟩
  · rintro ⟨s, hs, hi⟩
    obtain ⟨sig, hfirst⟩ := exists_first ⟨s, hs⟩
    obtain ⟨hno, hfirst'⟩ := h sig hfirst
    exact ⟨sig, hfirst, hfirst'.resolve_right fun hnone => hnone s hs hi, hno⟩

lemma interrupts_iff : p.threadPendingSignalInterrupts actions x = true ↔
    ∃ sig, p.First x sig ∧ Interrupting actions sig ∧ ¬ Restarting actions sig := by
  simp only [← selectNextSignal_eq_some]
  unfold threadPendingSignalInterrupts
  rcases p.selectNextSignal x with _ | sig
  · simp
  · cases h : (actions sig).disposition <;> simp [Interrupting, Restarting, h]; grind

lemma interruptsWait_iff : p.pendingSignalInterruptsWait actions x = true ↔
    x.termination = true ∨ x.deliverable = true ∧
      ∃ sig, p.First x sig ∧ Interrupting actions sig ∧ ¬ JobControl actions sig := by
  simp only [← selectNextSignal_eq_some]
  unfold pendingSignalInterruptsWait
  rcases p.selectNextSignal x with _ | sig
  · simp
  · cases h : (actions sig).disposition <;> cases ha : defaultAction sig <;>
      simp [Interrupting, JobControl, h, ha]

/-- **Both tests are right exactly if** the first signal interrupts unless no signal does, and is
not one of those that the test leaves out; the second also needs two bits of the summary to be
right. -/
theorem waits_interrupted_iff (p : Process) (actions : Signum → SigActionEntry) (x : Thread) :
    ((p.threadPendingSignalInterrupts actions x = true ↔ p.InterruptDue actions x) ↔
      ∀ sig, p.First x sig → ¬ Restarting actions sig ∧
        (Interrupting actions sig ∨ ∀ s ∈ p.unblocked x, ¬ Interrupting actions s)) ∧
    ((p.pendingSignalInterruptsWait actions x = true ↔ p.InterruptDue actions x) ↔
      if x.termination then ∃ s ∈ p.unblocked x, Interrupting actions s
      else if x.deliverable then ∀ sig, p.First x sig → ¬ JobControl actions sig ∧
        (Interrupting actions sig ∨ ∀ s ∈ p.unblocked x, ¬ Interrupting actions s)
      else ∀ s ∈ p.unblocked x, ¬ Interrupting actions s) := by
  rw [interrupts_iff, interruptsWait_iff]
  constructor
  · refine asks_first_iff fun sig h => ?_
    obtain ⟨⟨address, h⟩, -⟩ := h
    simp [Interrupting, h]
  cases x.termination with
  | true => simp [InterruptDue]
  | false =>
    cases x.deliverable with
    | true =>
      simp only [Bool.false_eq_true, if_false, if_true, false_or, true_and]
      refine asks_first_iff fun sig h => ?_
      rcases h with ⟨h, ha | ha⟩ <;> simp [Interrupting, h, ha]
    | false => simp [InterruptDue]

/-- Signal 10 is ignored and hides signal 12, for which there is a handler. -/
theorem ignored_signal_hides_handler :
    let p : Process := ⟨[0], fun _ => none, ∅, ∅⟩
    let x : Thread := ⟨∅, {9, 11}, ∅, true, false, false⟩
    let actions (sig : Signum) : SigActionEntry := ⟨if sig = 11 then .handler 0 else .ignore, false⟩
    p.InterruptDue actions x ∧ p.threadPendingSignalInterrupts actions x = false ∧
      p.pendingSignalInterruptsWait actions x = false :=
  ⟨⟨11, by decide, by simp [Interrupting]⟩, by decide, by decide⟩

end Process

end TxKernel.Signal
