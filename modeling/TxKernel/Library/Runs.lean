import Mathlib.Data.List.Basic

/-!
Runs of machines that take one input at a time, and simulation between two of them. The
implementation may fail at a step (`none`); the specification is total, with a precondition on its
inputs.
-/

namespace TxKernel.Runs

variable {S T I O : Type*}

def run (step : S → I → Option (S × O)) : S → List I → Option (S × List O)
  | s, [] => some (s, [])
  | s, i :: is =>
    match step s i with
    | none => none
    | some (s', o) => (run step s' is).map fun r => (r.1, o :: r.2)

def runSpec (step : T → I → T × O) : T → List I → T × List O
  | t, [] => (t, [])
  | t, i :: is =>
    let r := runSpec step (step t i).1 is
    (r.1, (step t i).2 :: r.2)

/-- Every input meets its precondition in the state the specification is then in. -/
def Allowed (step : T → I → T × O) (pre : T → I → Prop) : T → List I → Prop
  | _, [] => True
  | t, i :: is => pre t i ∧ Allowed step pre (step t i).1 is

instance decidableAllowed (step : T → I → T × O) (pre : T → I → Prop)
    [∀ t i, Decidable (pre t i)] : ∀ t is, Decidable (Allowed step pre t is)
  | _, [] => isTrue trivial
  | t, i :: is =>
    have := decidableAllowed step pre (step t i).1 is
    inferInstanceAs (Decidable (pre t i ∧ Allowed step pre (step t i).1 is))

lemma runSpec_append (step : T → I → T × O) (t : T) (is js : List I) :
    (runSpec step t (is ++ js)).1 = (runSpec step (runSpec step t is).1 js).1 := by
  induction is generalizing t with
  | nil => rfl
  | cons i is ih => exact ih (step t i).1

variable {pre : T → I → Prop} {step : S → I → Option (S × O)} {spec : T → I → T × O} {t : T} {s : S}

/-- **Invariants**: what every allowed step keeps, every allowed run keeps. -/
theorem invariant {step : T → I → T × O} (P : T → Prop)
    (hstep : ∀ t i, P t → pre t i → P (step t i).1) (is : List I) (ht : P t)
    (hpre : Allowed step pre t is) : P (runSpec step t is).1 := by
  induction is generalizing t with
  | nil => exact ht
  | cons i is ih => exact ih (hstep t i ht hpre.1) hpre.2

lemma allowed_true (step : T → I → T × O) (t : T) (is : List I) :
    Allowed step (fun _ _ => True) t is := by
  induction is generalizing t with
  | nil => trivial
  | cons i is ih => exact ⟨trivial, ih _⟩

theorem invariant_total {step : T → I → T × O} (P : T → Prop) (hstep : ∀ t i, P t → P (step t i).1)
    (is : List I) (ht : P t) :
    P (runSpec step t is).1 :=
  invariant P (fun t i h _ => hstep t i h) is ht (allowed_true step t is)

/-- Every input meets its condition in the state the machine is then in. -/
def Guarded (step : S → I → Option (S × O)) (pre : S → I → Prop) : S → List I → Prop
  | _, [] => True
  | s, i :: is => pre s i ∧
    match step s i with
    | none => True
    | some (s', _) => Guarded step pre s' is

instance decidableGuarded (step : S → I → Option (S × O)) (pre : S → I → Prop)
    [∀ s i, Decidable (pre s i)] : ∀ s is, Decidable (Guarded step pre s is)
  | _, [] => isTrue trivial
  | s, i :: is => by
    unfold Guarded
    have : ∀ r : Option (S × O), Decidable (match r with
        | none => True
        | some (s', _) => Guarded step pre s' is) := fun
      | none => isTrue trivial
      | some (s', _) => decidableGuarded step pre s' is
    exact instDecidableAnd

lemma guarded_true (step : S → I → Option (S × O)) (s : S) (is : List I) :
    Guarded step (fun _ _ => True) s is := by
  induction is generalizing s with
  | nil => trivial
  | cons i is ih =>
    refine ⟨trivial, ?_⟩
    rcases step s i with _ | r
    · trivial
    · exact ih r.1

/-- **Progress**: if from every state with `P` every step that meets its condition goes through to
one with `P`, so does every run. -/
theorem run_guarded {pre : S → I → Prop} (P : S → Prop)
    (hstep : ∀ s i, P s → pre s i → ∃ s' o, step s i = some (s', o) ∧ P s') (is : List I) (hs : P s)
    (hg : Guarded step pre s is) : ∃ s' os, run step s is = some (s', os) ∧ P s' := by
  induction is generalizing s with
  | nil => exact ⟨s, [], rfl, hs⟩
  | cons i is ih =>
    obtain ⟨hpre, hrest⟩ := hg
    obtain ⟨s1, o, h1, hs1⟩ := hstep s i hs hpre
    rw [h1] at hrest
    obtain ⟨s2, os, h2, hs2⟩ := ih hs1 hrest
    exact ⟨s2, o :: os, by simp [run, h1, h2], hs2⟩

theorem run_total (P : S → Prop) (hstep : ∀ s i, P s → ∃ s' o, step s i = some (s', o) ∧ P s')
    (is : List I) (hs : P s) : ∃ s' os, run step s is = some (s', os) ∧ P s' :=
  run_guarded P (fun s i h _ => hstep s i h) is hs (guarded_true step s is)

/-- **Simulation**: a relation kept by every allowed step, with equal outputs, is kept by every
allowed run, and the run goes through. -/
theorem simulate {impl : S → I → Option (S × O)} (R : S → T → Prop)
    (hstep : ∀ s t i, R s t → pre t i → ∃ s', impl s i = some (s', (spec t i).2) ∧
      R s' (spec t i).1)
    (is : List I) (hR : R s t) (hpre : Allowed spec pre t is) :
    ∃ s', run impl s is = some (s', (runSpec spec t is).2) ∧ R s' (runSpec spec t is).1 := by
  induction is generalizing s t with
  | nil => exact ⟨s, rfl, hR⟩
  | cons i is ih =>
    obtain ⟨s1, h1, hR1⟩ := hstep s t i hR hpre.1
    obtain ⟨s2, h2, hR2⟩ := ih hR1 hpre.2
    exact ⟨s2, by simp [run, h1, h2, runSpec], hR2⟩

theorem simulate_total {impl : S → I → S × O} (R : S → T → Prop)
    (hstep : ∀ s t i, R s t → pre t i → (impl s i).2 = (spec t i).2 ∧ R (impl s i).1 (spec t i).1)
    (is : List I) (hR : R s t) (hpre : Allowed spec pre t is) :
    (runSpec impl s is).2 = (runSpec spec t is).2 ∧
      R (runSpec impl s is).1 (runSpec spec t is).1 := by
  induction is generalizing s t with
  | nil => exact ⟨rfl, hR⟩
  | cons i is ih =>
    obtain ⟨h1, hR1⟩ := hstep s t i hR hpre.1
    obtain ⟨h2, hR2⟩ := ih hR1 hpre.2
    exact ⟨by simp [runSpec, h1, h2], hR2⟩

end TxKernel.Runs
