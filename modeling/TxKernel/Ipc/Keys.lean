import Mathlib.Algebra.Order.Ring.Nat
import Mathlib.Logic.Function.Basic
import TxKernel.Library.Runs

/-!
The objects that a System V key names. `step_shmget`, `step_semget` and `step_msgget` look the key
up, make the object and enter it in three lock sections, one step each. All calls are for one key
that is not private.
-/

namespace TxKernel.Ipc

open Function Runs List

inductive Facility where
  | shm | sem | msg
  deriving DecidableEq

inductive Errno where
  | einval | eexist | eacces | enoent | enomem

structure Limits where
  shmmin : ℕ
  shmmax : ℕ
  semmsl : ℕ

def Limits.admits (l : Limits) (size : ℕ) : Facility → Bool
  | .shm => l.shmmin ≤ size && size ≤ l.shmmax
  | .sem => size ≠ 0 && size ≤ l.semmsl % 2 ^ 16
  | .msg => true

/-- The flags, the size that is asked for, the limits, and whether the caller may read the
object. -/
structure Request where
  create : Bool
  exclusive : Bool
  size : ℕ
  limits : Limits
  permitted : Bool

/-- How far a call has come. The last three phases are returns, two of them with an id. -/
inductive Phase where
  | start
  | checked
  | creating
  | registered (id : ℕ)
  | found (id : ℕ)
  | made (id : ℕ)
  | failed (errno : Errno)

structure Named where
  id : ℕ
  size : ℕ

/-- The calls, the object under the key, the counter, and the ids of all objects that were made for
the key. -/
structure Table where
  phase : ℕ → Phase
  named : Option Named
  nextId : ℕ
  created : List ℕ

def Table.new : Table := ⟨fun _ => .start, none, 1, []⟩

def lookup (f : Facility) (r : Request) : Option Named → Phase
  | some named =>
    if r.exclusive then .failed .eexist
    else if f ≠ .msg ∧ named.size < r.size then .failed .einval
    else if r.permitted then .found named.id
    else .failed .eacces
  | none => if r.create then .creating else .failed .enoent

def Table.goto (t : Table) (i : ℕ) (phase : Phase) : Table :=
  { t with phase := update t.phase i phase }

/-- The next section of call `i`, with or without memory for an object. -/
def Table.step (f : Facility) (r : Request) (t : Table) (i : ℕ) (memory : Bool) : Table :=
  match t.phase i with
  | .start =>
    t.goto i (if r.limits.admits r.size f then .checked else .failed .einval)
  | .checked => t.goto i (lookup f r t.named)
  | .creating =>
    let t' := { t with nextId := (t.nextId + 1) % 2 ^ 32 }
    if memory then { t'.goto i (.registered t.nextId) with created := t.nextId :: t.created }
    else t'.goto i (.failed .enomem)
  | .registered id => { t.goto i (.made id) with named := some ⟨id, r.size⟩ }
  | .found _ | .made _ | .failed _ => t

variable (calls : Facility → ℕ → Request)

def step (w : Facility → Table) (e : Facility × ℕ × Bool) : (Facility → Table) × Unit :=
  (update w e.1 ((w e.1).step e.1 (calls e.1 e.2.1) e.2.1 e.2.2), ())

def Table.Returned (t : Table) (i id : ℕ) : Prop := t.phase i = .found id ∨ t.phase i = .made id

/-- One id for all calls, one object, and one exclusive success. -/
structure Table.Unique (calls : ℕ → Request) (t : Table) : Prop where
  id : ∀ i j a b, t.Returned i a → t.Returned j b → a = b
  object : t.created.length ≤ 1
  exclusive : ∀ i j a b, (calls i).exclusive → (calls j).exclusive → t.Returned i a →
    t.Returned j b → i = j

/-- A call that found nothing and has not entered its object yet. -/
def Table.Pending (t : Table) (i : ℕ) : Prop :=
  t.phase i = .creating ∨ ∃ id, t.phase i = .registered id

/-- The key is looked up only while no other call of the facility is pending. -/
def Apart (w : Facility → Table) (e : Facility × ℕ × Bool) : Prop :=
  (w e.1).phase e.2.1 = .checked → ∀ j, ¬ (w e.1).Pending j

/-- The call makes the object, or has made it. -/
def Phase.Owns : Phase → Prop
  | .creating | .registered _ | .made _ => True
  | _ => False

/-- One call at most makes an object, and the others find what it has entered. -/
structure Keyed (c : ℕ → Request) (t : Table) : Prop where
  returned : ∀ i a, t.Returned i a → ∃ n, t.named = some n ∧ n.id = a
  exclusive : ∀ i a, t.phase i = .found a → (c i).exclusive = false
  pending : ∀ i, t.Pending i → t.named = none
  once : ∀ i j, (t.phase i).Owns → (t.phase j).Owns → i = j
  created : t.created ≠ [] → ∃ i a, t.phase i = .registered a ∨ t.phase i = .made a
  single : t.created.length ≤ 1

section

open Table

variable {c : ℕ → Request} {t : Table}

lemma Keyed.unique (h : Keyed c t) : t.Unique c := by
  have howns : ∀ i a, (c i).exclusive → t.Returned i a → (t.phase i).Owns := by
    rintro i a hx (hi | hi)
    · rw [h.exclusive i a hi] at hx
      cases hx
    · rw [hi]
      trivial
  refine ⟨fun i j a b hi hj => ?_, h.single, fun i j a b hxi hxj hi hj =>
    h.once i j (howns i a hxi hi) (howns j b hxj hj)⟩
  obtain ⟨n, hn, rfl⟩ := h.returned i a hi
  obtain ⟨m, hm, rfl⟩ := h.returned j b hj
  rw [hm] at hn
  cases hn
  rfl

lemma Table.Pending.owns {i : ℕ} (h : t.Pending i) : (t.phase i).Owns := by
  rcases h with h | ⟨_, h⟩ <;> rw [h] <;> trivial

lemma Keyed.goto (h : Keyed c t) {i : ℕ} {phase : Phase}
    (hreturned : ∀ a, phase = .found a ∨ phase = .made a → ∃ n, t.named = some n ∧ n.id = a)
    (hexclusive : ∀ a, phase = .found a → (c i).exclusive = false)
    (hpending : phase = .creating ∨ (∃ id, phase = .registered id) → t.named = none)
    (honce : phase.Owns → ∀ j, (t.phase j).Owns → j = i)
    (hcreated : t.created ≠ [] → (t.phase i).Owns →
      ∃ a, phase = .registered a ∨ phase = .made a) : Keyed c (t.goto i phase) := by
  have hself : (t.goto i phase).phase i = phase := update_self ..
  have hother {j : ℕ} (hj : j ≠ i) : (t.goto i phase).phase j = t.phase j := update_of_ne hj ..
  refine ⟨fun j a hj => ?_, fun j a hj => ?_, fun j hj => ?_, fun j k hj hk => ?_, fun hne => ?_,
    h.single⟩
  · by_cases hji : j = i
    · rw [Returned, hji, hself] at hj
      exact hreturned a hj
    · rw [Returned, hother hji] at hj
      exact h.returned j a hj
  · by_cases hji : j = i
    · rw [hji, hself] at hj
      rw [hji]
      exact hexclusive a hj
    · rw [hother hji] at hj
      exact h.exclusive j a hj
  · by_cases hji : j = i
    · rw [Pending, hji, hself] at hj
      exact hpending hj
    · rw [Pending, hother hji] at hj
      exact h.pending j hj
  · by_cases hji : j = i <;> by_cases hki : k = i
    · rw [hji, hki]
    · rw [hji, hself] at hj
      rw [hother hki] at hk
      exact absurd (honce hj k hk) hki
    · rw [hki, hself] at hk
      rw [hother hji] at hj
      exact absurd (honce hk j hj) hji
    · rw [hother hji] at hj
      rw [hother hki] at hk
      exact h.once j k hj hk
  · obtain ⟨j, a, hj⟩ := h.created hne
    by_cases hji : j = i
    · have howns : (t.phase i).Owns := by rcases hj with hj | hj <;> rw [← hji, hj] <;> trivial
      obtain ⟨a, ha⟩ := hcreated hne howns
      exact ⟨i, a, by rwa [hself]⟩
    · exact ⟨j, a, by rwa [hother hji]⟩

variable (h : Keyed c t) (f : Facility) {i : ℕ} (memory : Bool)
include h

lemma Keyed.lookup (hnow : t.phase i = .checked) (hi : ∀ j, ¬ t.Pending j) :
    Keyed c (t.goto i (lookup f (c i) t.named)) := by
  have hidle (errno : Errno) : Keyed c (t.goto i (.failed errno)) :=
    h.goto nofun nofun (by simp) nofun (by simp [hnow, Phase.Owns])
  rcases hn : t.named with _ | named
  · simp only [Ipc.lookup]
    split_ifs
    · -- with no call pending and nothing under the key, none makes an object
      refine h.goto nofun nofun (fun _ => hn) (fun _ j hj => ?_) (by simp [hnow, Phase.Owns])
      have hpending := hi j
      rcases hp : t.phase j with _ | _ | _ | id | id | id | errno <;>
        simp only [hp, Phase.Owns, Pending] at hj hpending
      · simp at hpending
      · simp at hpending
      · obtain ⟨n, hn', -⟩ := h.returned j id (.inr hp)
        rw [hn] at hn'
        cases hn'
    · exact hidle _
  · simp only [Ipc.lookup]
    split_ifs with hexcl hsize hperm
    · exact hidle _
    · exact hidle _
    · exact h.goto (by simp [hn]) (fun _ _ => by simpa using hexcl) (by simp) nofun
        (by simp [hnow, Phase.Owns])
    · exact hidle _

lemma Keyed.create (hnow : t.phase i = .creating) : Keyed c (t.step f (c i) i memory) := by
  have howns : (t.phase i).Owns := by rw [hnow]; trivial
  have honce (j : ℕ) (hj : (t.phase j).Owns) : j = i := h.once j i hj howns
  have hcreated : t.created = [] := by
    by_contra hne
    obtain ⟨j, a, hj⟩ := h.created hne
    obtain rfl := honce j (by rcases hj with hj | hj <;> rw [hj] <;> trivial)
    simp [hnow] at hj
  simp only [Table.step, hnow]
  split_ifs
  · have hgoto : Keyed c (t.goto i (.registered t.nextId)) :=
      h.goto (by simp) nofun (fun _ => h.pending i (.inl hnow)) (fun _ => honce)
        fun _ _ => ⟨_, .inl rfl⟩
    exact ⟨hgoto.returned, hgoto.exclusive, hgoto.pending, hgoto.once,
      fun _ => ⟨i, t.nextId, .inl (update_self ..)⟩, by simp [hcreated]⟩
  · have hgoto : Keyed c (t.goto i (.failed .enomem)) :=
      h.goto nofun nofun (by simp) nofun (by simp [hcreated])
    exact ⟨hgoto.returned, hgoto.exclusive, hgoto.pending, hgoto.once, hgoto.created,
      hgoto.single⟩

lemma Keyed.enter {id : ℕ} (hnow : t.phase i = .registered id) (size : ℕ) :
    Keyed c { t.goto i (.made id) with named := some ⟨id, size⟩ } := by
  have howns : (t.phase i).Owns := by rw [hnow]; trivial
  have hnone : t.named = none := h.pending i (.inr ⟨id, hnow⟩)
  have hother {j : ℕ} (hj : j ≠ i) : update t.phase i (.made id) j = t.phase j :=
    update_of_ne hj ..
  refine ⟨fun j a hj => ?_, fun j a hj => ?_, fun j hj => ?_, fun j k hj hk => ?_,
    fun _ => ⟨i, id, .inr (update_self ..)⟩, h.single⟩ <;> by_cases hji : j = i
  · subst hji
    refine ⟨_, rfl, ?_⟩
    simpa [Returned, Table.goto] using hj
  · -- nothing was under the key, so that no other call has returned
    obtain ⟨n, hn, -⟩ := h.returned j a (by simpa [Returned, Table.goto, hother hji] using hj)
    rw [hnone] at hn
    cases hn
  · simp [Table.goto, hji] at hj
  · exact h.exclusive j a (by simpa [Table.goto, hother hji] using hj)
  · simp [Pending, Table.goto, hji] at hj
  · have hj' : t.Pending j := by simpa [Pending, Table.goto, hother hji] using hj
    exact absurd (h.once j i hj'.owns howns) hji
  · by_cases hki : k = i
    · rw [hji, hki]
    · exact absurd (h.once k i (by simpa [Table.goto, hother hki] using hk) howns) hki
  · exact absurd (h.once j i (by simpa [Table.goto, hother hji] using hj) howns) hji

lemma Keyed.step (i : ℕ) (hi : t.phase i = .checked → ∀ j, ¬ t.Pending j) :
    Keyed c (t.step f (c i) i memory) := by
  cases hnow : t.phase i with
  | start =>
    simp only [Table.step, hnow]
    split_ifs <;> exact h.goto nofun nofun (by simp) nofun (by simp [hnow, Phase.Owns])
  | checked =>
    simp only [Table.step, hnow]
    exact h.lookup f hnow (hi hnow)
  | creating => exact h.create f memory hnow
  | registered id =>
    simp only [Table.step, hnow]
    exact h.enter hnow _
  | found | made | failed => simpa only [Table.step, hnow] using h

end

/-- While no call looks the key up when another is about to make the object, the key names one
object of each facility. -/
theorem keys_name_one_object (es : List (Facility × ℕ × Bool))
    (h : Allowed (step calls) Apart (fun _ => .new) es) (f : Facility) :
    ((runSpec (step calls) (fun _ => .new) es).1 f).Unique (calls f) := by
  refine (invariant (fun w => ∀ f, Keyed (calls f) (w f)) (fun w e hw he f => ?_) es (fun f => ?_) h
    f).unique
  · rcases eq_or_ne f e.1 with rfl | hne
    · show Keyed _ (update w e.1 _ e.1)
      rw [update_self]
      exact (hw e.1).step e.1 _ _ he
    · show Keyed _ (update w e.1 _ f)
      rw [update_of_ne hne]
      exact hw f
  · constructor <;> simp [Table.new, Table.Returned, Table.Pending, Phase.Owns]

def asking (exclusive : ℕ → Bool) : Facility → ℕ → Request :=
  fun _ i => ⟨true, exclusive i, 4096, ⟨1, 2 ^ 64 - 1, 32000⟩, true⟩

/-- The first call makes the segment, the second finds it, and the third, which wants a new one,
fails. -/
theorem key_of_calls_in_turn :
    let calls := asking fun i => i == 2
    let es := replicate 4 (Facility.shm, 0, true) ++ replicate 2 (.shm, 1, true) ++
      replicate 2 (.shm, 2, true)
    let t := (runSpec (step calls) (fun _ => .new) es).1 .shm
    t.phase 0 = .made 1 ∧ t.phase 1 = .found 1 ∧ t.phase 2 = .failed .eexist ∧
      t.Unique (calls .shm) := by
  intro calls es
  have hes : Allowed (step calls) Apart (fun _ => .new) es := by
    refine ⟨nofun, fun _ j hj => ?_, nofun, nofun, nofun, fun _ j hj => ?_, nofun, fun _ j hj => ?_,
      trivial⟩ <;>
    rcases hj with hj | ⟨_, hj⟩ <;> rcases j with _ | _ | _ | j <;> cases hj
  exact ⟨rfl, rfl, rfl, keys_name_one_object calls es hes .shm⟩

/-- Two exclusive calls look the key up before either has entered its segment, and both succeed. -/
theorem key_names_two_segments :
    let es := (replicate 4 [(Facility.shm, 0, true), (.shm, 1, true)]).flatten
    let t := (runSpec (step (asking fun _ => true)) (fun _ => .new) es).1 .shm
    t.phase 0 = .made 1 ∧ t.phase 1 = .made 2 ∧ t.created = [2, 1] :=
  ⟨rfl, rfl, rfl⟩

end TxKernel.Ipc
