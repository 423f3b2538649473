import Mathlib.Algebra.BigOperators.Group.List.Basic
import Mathlib.Algebra.Ring.Int.Defs
import TxKernel.SysvSem.Array

/-!
The operations of one call against their meaning, which is to run them in order on a copy. The tests
are made on the values before the call: that is the same where no semaphore occurs twice, but not
otherwise.
-/

namespace TxKernel.SysvSem

open List Function World SemBuf Int

/-! ### What a call means -/

/-- One operation on the copy: nothing if it has to wait or leaves the range. -/
def execOp (vs : ℕ → ℤ) (s : SemBuf) : Option (ℕ → ℤ) :=
  let v := vs s.semNum + s.semOp.toInt
  if s.semOp = 0 then if vs s.semNum = 0 then some vs else none
  else if 0 ≤ v ∧ v ≤ 32767 then some (Function.update vs s.semNum v)
  else none

def execute : (ℕ → ℤ) → List SemBuf → Option (ℕ → ℤ)
  | vs, [] => some vs
  | vs, s :: sops => (execOp vs s).bind fun vs' => execute vs' sops

/-- The sum of the operations on a semaphore that are to be undone. -/
def undoSum (sops : List SemBuf) (i : ℕ) : ℤ :=
  ((sops.filter fun s => s.undo ∧ s.semNum = i).map fun s => s.semOp.toInt).sum

def ints (values : ℕ → SemValue) (i : ℕ) : ℤ := (values i).val.toInt

variable {values : ℕ → SemValue} {sops : List SemBuf} {pid : ℕ} {vs : ℕ → ℤ} {s : SemBuf}

/-! ### Operations at once and in order -/

def opsOn (sops : List SemBuf) (i : ℕ) : List ℤ :=
  (sops.filter fun s => s.semNum = i).map fun s => s.semOp.toInt

def Possible (v : ℤ) (op : ℤ) : Prop := if op = 0 then v = 0 else 0 ≤ v + op ∧ v + op ≤ 32767

/-- Each operation is possible behind the sum of those before it on its semaphore. -/
def InOrder (vs : ℕ → ℤ) (sops : List SemBuf) : Prop :=
  ∀ before s after, sops = before ++ s :: after →
    Possible (vs s.semNum + (opsOn before s.semNum).sum) s.semOp.toInt

/-- No operation finds another value than 0 where it waits for 0, or less than it takes. The least
operation, whose negation wraps, takes nothing. -/
def AtOnce (vs : ℕ → ℤ) (sops : List SemBuf) : Prop :=
  ∀ s ∈ sops, (s.semOp.toInt = 0 → vs s.semNum = 0) ∧
    (-32768 < s.semOp.toInt → s.semOp.toInt < 0 → 0 ≤ vs s.semNum + s.semOp.toInt)

/-- Add, cut at the bounds of 16 bits; the least operation adds what it should take. -/
def cutAdd (v op : ℤ) : ℤ :=
  max (-32768) (min (v + if op = -32768 then 32768 else op) 32767)

lemma opsOn_cons (s : SemBuf) (sops : List SemBuf) (i : ℕ) : opsOn (s :: sops) i =
    if s.semNum = i then s.semOp.toInt :: opsOn sops i else opsOn sops i := by
  unfold opsOn
  by_cases h : s.semNum = i
  · rw [filter_cons_of_pos (by simpa using h), if_pos h, map_cons]
  · rw [filter_cons_of_neg (by simpa using h), if_neg h]

lemma any_wouldBlock_iff : sops.any (wouldBlock values) = false ↔ AtOnce (ints values) sops := by
  rw [any_eq_false]
  refine forall_congr' fun s => forall_congr' fun _ => ?_
  have hints : ints values s.semNum = (values s.semNum).val.toInt := rfl
  have hval := toInt_bounds (values s.semNum).val
  have hop := toInt_bounds s.semOp
  simp only [wouldBlock]
  by_cases hzero : s.semOp = 0
  · simp [hzero, hints, toInt_eq_zero_iff]
  rw [if_neg hzero, Bool.and_eq_true, decide_eq_true_iff, decide_eq_true_iff, toInt_neg_iff,
    Int16.lt_iff_toInt_lt, ← hints]
  have hop0 := mt toInt_eq_zero_iff.mp hzero
  by_cases hmin : s.semOp.toInt = -32768
  · have hwrap : (-s.semOp).toInt = -32768 := by
      rw [Int16.toInt_neg, hmin]
      decide
    omega
  · rw [toInt_neg_of_ne hmin]
    omega

def added (vs : ℕ → ℤ) (s : SemBuf) : ℕ → ℤ :=
  update vs s.semNum (vs s.semNum + s.semOp.toInt)

lemma execOp_eq (vs : ℕ → ℤ) (s : SemBuf) [Decidable (Possible (vs s.semNum) s.semOp.toInt)] :
    execOp vs s = if Possible (vs s.semNum) s.semOp.toInt then some (added vs s) else none := by
  simp only [execOp, Possible, added, toInt_eq_zero_iff]
  by_cases hzero : s.semOp = 0
  · simp [hzero]
  · simp [hzero]

lemma inOrder_cons : InOrder vs (s :: sops) ↔
    Possible (vs s.semNum) s.semOp.toInt ∧ InOrder (added vs s) sops := by
  have hsum (before : List SemBuf) (i : ℕ) :
      vs i + (opsOn (s :: before) i).sum = added vs s i + (opsOn before i).sum := by
    rw [opsOn_cons, added]
    by_cases hi : s.semNum = i
    · subst hi
      simp [add_assoc]
    · simp [hi, Ne.symm hi]
  constructor
  · intro h
    refine ⟨by simpa [opsOn] using h [] s sops rfl, fun before s' after hsplit => ?_⟩
    rw [← hsum]
    exact h (s :: before) s' after (by rw [hsplit, cons_append])
  · rintro ⟨hs, h⟩ before s' after hsplit
    rcases before with _ | ⟨s₀, before⟩
    · obtain ⟨rfl, rfl⟩ := cons.inj hsplit
      simpa [opsOn] using hs
    · obtain ⟨rfl, hrest⟩ := cons.inj hsplit
      rw [hsum]
      exact h before s' after hrest

lemma execute_isSome_iff : (execute vs sops).isSome ↔ InOrder vs sops := by
  classical
  induction sops generalizing vs with
  | nil => simp [execute, InOrder]
  | cons s sops ih =>
    rw [inOrder_cons, ← ih, execute, execOp_eq]
    split_ifs with h <;> simp [h]

lemma ints_applyOp : ints (applyOp pid values s) =
    update (ints values) s.semNum (cutAdd (ints values s.semNum) s.semOp.toInt) := by
  have hval := toInt_bounds (values s.semNum).val
  have hop := toInt_bounds s.semOp
  funext i
  by_cases hi : i = s.semNum
  swap
  · simp [ints, applyOp, hi]
  subst hi
  simp only [ints, applyOp, update_self, cutAdd]
  by_cases hpos : 0 < s.semOp
  · rw [if_pos hpos, saturatingAdd, toInt_clamp]
    rw [toInt_pos_iff] at hpos
    rw [if_neg (by omega)]
  rw [if_neg hpos]
  by_cases hneg : s.semOp < 0
  · rw [if_pos hneg, saturatingSub, toInt_clamp]
    by_cases hmin : s.semOp.toInt = -32768
    · have hwrap : (-s.semOp).toInt = -32768 := by
        rw [Int16.toInt_neg, hmin]
        decide
      rw [hwrap, if_pos hmin]
      omega
    · rw [toInt_neg_of_ne hmin, if_neg hmin]
      omega
  · rw [if_neg hneg]
    rw [toInt_pos_iff] at hpos
    rw [toInt_neg_iff] at hneg
    rw [if_neg (by omega)]
    omega

/-- **Application**: operations that are possible in order have the values that they mean. -/
lemma ints_foldl_applyOp (h : execute (ints values) sops = some vs) :
    ints (sops.foldl (applyOp pid) values) = vs := by
  classical
  induction sops generalizing values with
  | nil => exact Option.some.inj h
  | cons s sops ih =>
    rw [execute, execOp_eq] at h
    split_ifs at h with hposs
    · refine ih (Eq.trans ?_ h)
      have hval : ints values s.semNum ≤ 32767 := (toInt_bounds _).2
      have hcut : cutAdd (ints values s.semNum) s.semOp.toInt =
          ints values s.semNum + s.semOp.toInt := by
        have hlow : -32768 ≤ ints values s.semNum := (toInt_bounds _).1
        unfold Possible at hposs
        unfold cutAdd
        split_ifs at hposs ⊢ <;> omega
      rw [ints_applyOp, hcut]
      rfl
    · cases h

lemma foldl_applyOp_apply (sops : List SemBuf) (pid : ℕ) (values : ℕ → SemValue) (i : ℕ) :
    ints (sops.foldl (applyOp pid) values) i = (opsOn sops i).foldl cutAdd (ints values i) ∧
      (sops.foldl (applyOp pid) values i).lastPid =
        if ∃ s ∈ sops, s.semNum = i then pid else (values i).lastPid := by
  induction sops generalizing values with
  | nil => simp [opsOn]
  | cons s sops ih =>
    rw [foldl_cons, (ih _).1, (ih _).2, opsOn_cons, ints_applyOp]
    by_cases hi : s.semNum = i
    · subst hi
      simp [applyOp]
    · simp [applyOp, hi, Ne.symm hi]

lemma foldl_applyOp_iff : sops.foldl (applyOp pid) values = values ↔
    ∀ s ∈ sops, (values s.semNum).lastPid = pid ∧
      (opsOn sops s.semNum).foldl cutAdd (ints values s.semNum) = ints values s.semNum := by
  constructor
  · intro h s hs
    obtain ⟨hval, hpid⟩ := foldl_applyOp_apply sops pid values s.semNum
    rw [h] at hval hpid
    exact ⟨hpid.trans (if_pos ⟨s, hs, rfl⟩), hval.symm⟩
  · intro h
    funext i
    obtain ⟨hval, hpid⟩ := foldl_applyOp_apply sops pid values i
    have hsame : ints (sops.foldl (applyOp pid) values) i = ints values i ∧
        (sops.foldl (applyOp pid) values i).lastPid = (values i).lastPid := by
      rw [hval, hpid]
      by_cases hi : ∃ s ∈ sops, s.semNum = i
      · obtain ⟨s, hs, rfl⟩ := hi
        rw [if_pos ⟨s, hs, rfl⟩]
        exact ⟨(h s hs).2, (h s hs).1.symm⟩
      · have hnone : opsOn sops i = [] := by
          simpa [opsOn] using fun s hs hs' => hi ⟨s, hs, hs'⟩
        simp [hi, hnone]
    exact SemValue.ext (Int16.toInt_inj.mp hsame.1) hsame.2

/-! ### Adjustments -/

lemma undoSum_cons (s : SemBuf) (sops : List SemBuf) (i : ℕ) :
    undoSum (s :: sops) i =
      (if s.undo ∧ s.semNum = i then s.semOp.toInt else 0) + undoSum sops i := by
  unfold undoSum
  by_cases h : s.undo ∧ s.semNum = i
  · rw [filter_cons_of_pos (by simpa using h), if_pos h, map_cons, sum_cons]
  · rw [filter_cons_of_neg (by simpa using h), if_neg h, zero_add]

lemma undoSum_eq_zero {i : ℕ} (h : ∀ s ∈ sops, ¬ (s.undo ∧ s.semNum = i)) : undoSum sops i = 0 := by
  have hnone : sops.filter (fun s => s.undo ∧ s.semNum = i) = [] := by
    rw [filter_eq_nil_iff]
    exact fun s hs hs' => h s hs (by simpa using hs')
  rw [undoSum, hnone]
  rfl

lemma toInt_foldl_trackUndo (adjustments : ℕ → Int16) (i : ℕ) :
    (sops.foldl trackUndo adjustments i).toInt =
      ((adjustments i).toInt - undoSum sops i).bmod 65536 := by
  induction sops generalizing adjustments with
  | nil =>
    have hbounds := toInt_bounds (adjustments i)
    rw [foldl_nil, undoSum, filter_nil, map_nil, sum_nil, bmod_def]
    omega
  | cons s sops ih =>
    rw [foldl_cons, ih, undoSum_cons]
    unfold trackUndo
    by_cases hundo : s.undo
    · by_cases hi : s.semNum = i
      · subst hi
        rw [if_pos hundo, if_pos ⟨hundo, rfl⟩, update_self, Int16.toInt_sub]
        rw [bmod_def, bmod_def, bmod_def]
        omega
      · rw [if_pos hundo, if_neg fun hc => hi hc.2, update_of_ne (Ne.symm hi), zero_add]
    · rw [if_neg hundo, if_neg fun hc => hundo hc.1, zero_add]

def UndoFits (sops : List SemBuf) (i : ℕ) : Prop :=
  -32768 ≤ -undoSum sops i ∧ -undoSum sops i ≤ 32767

lemma toInt_trackUndo_iff (i : ℕ) :
    (sops.foldl trackUndo (fun _ => 0) i).toInt = -undoSum sops i ↔ UndoFits sops i := by
  have hzero : (0 : Int16).toInt = 0 := rfl
  rw [toInt_foldl_trackUndo, hzero, UndoFits, bmod_def]
  omega

lemma recordSemUndo_inj {undos : Undos} {semid : ℕ} {adj adj' : ℕ → Int16}
    (h : recordSemUndo undos semid adj = recordSemUndo undos semid adj') : adj = adj' := by
  have hat := congrFun h semid
  unfold recordSemUndo at hat
  have hadd (u a : Int16) : (if a ≠ 0 then u + a else u) = u + a := by
    by_cases ha : a = 0
    · simp [ha]
    · rw [if_pos ha]
  rcases hu : undos semid with _ | u
  · simp only [hu, update_self] at hat
    exact Option.some.inj hat
  simp only [hu, update_self] at hat
  funext i
  have hi := congrFun (Option.some.inj hat) i
  rw [hadd, hadd] at hi
  exact (Int16.add_right_inj (u i)).mp hi

/-! ### A call -/

section call

variable {w : World} {semid : ℕ} {cred : Cred} {array : SemArray} {w₁ : World}

lemma requireSemExists_ok (h : w.requireSemExists semid = .ok array) :
    w.table semid = some array := by
  unfold requireSemExists at h
  cases htable : w.table semid with
  | none =>
    simp only [htable] at h
    split_ifs at h
  | some found =>
    simp only [htable] at h
    rw [Except.ok.inj h]

lemma admitted_ok (h : admitted w semid sops cred = .ok (array, values)) :
    w.table semid = some array ∧ array.payload = some values ∧
      ∀ s ∈ sops, s.semNum < array.nsems := by
  by_cases hnil : sops = []
  · rw [admitted, if_pos hnil] at h
    cases h
  rw [admitted, if_neg hnil] at h
  rcases hfound : w.requireSemExists semid with e | found
  · rw [hfound] at h
    cases h
  simp only [hfound] at h
  by_cases hdestroyed : found.destroyed
  · rw [if_pos hdestroyed] at h
    cases h
  rw [if_neg hdestroyed] at h
  rcases hperm : requireCanWriteSem found cred with e | u
  · simp [hperm] at h
  rcases hpayload : found.payload with _ | vs
  · simp [hperm, hpayload] at h
  simp only [hperm, hpayload] at h
  by_cases hbig : (sops.any fun s => found.nsems ≤ s.semNum) = true
  · rw [if_pos hbig] at h
    cases h
  rw [if_neg hbig] at h
  obtain ⟨rfl, rfl⟩ := Prod.mk.inj (Except.ok.inj h)
  exact ⟨requireSemExists_ok hfound, hpayload, by simpa using hbig⟩

def Refused (w : World) (semid : ℕ) (sops : List SemBuf) (cred : Cred) (pid : ℕ) : Prop :=
  (∀ n, (stepSemop w semid sops cred pid).2 ≠ .done n) ∧ (stepSemop w semid sops cred pid).1 = w

/-- The values are those of the copy, and the adjustments the negated sums. -/
structure Applied (w : World) (semid : ℕ) (sops : List SemBuf) (pid : ℕ) (array : SemArray)
    (target : ℕ → ℤ) (w' : World) : Prop where
  values : ∃ vs, w'.table = Function.update w.table semid (some { array with payload := some vs }) ∧
    ints vs = target
  removed : w'.removed = w.removed
  undone : sops.any SemBuf.undo → ∃ undos adj, w.undos pid = some undos ∧
    w'.undos = Function.update w.undos pid (some (recordSemUndo undos semid adj)) ∧
    ∀ i, (adj i).toInt = -undoSum sops i
  kept : sops.any SemBuf.undo = false → w'.undos = w.undos

/-- The call does what it means. -/
structure Meets (w : World) (semid : ℕ) (sops : List SemBuf) (cred : Cred) (pid : ℕ) : Prop where
  refused : ∀ e, admitted w semid sops cred = .error e → Refused w semid sops cred pid
  runs : ∀ array values target, admitted w semid sops cred = .ok (array, values) →
    execute (ints values) sops = some target →
    (stepSemop w semid sops cred pid).2 = .done sops.length ∧
      Applied w semid sops pid array target (stepSemop w semid sops cred pid).1
  stops : ∀ array values, admitted w semid sops cred = .ok (array, values) →
    execute (ints values) sops = none → Refused w semid sops cred pid

/-- The caller can record what it wants undone. -/
def Alive (w : World) (sops : List SemBuf) (pid : ℕ) : Prop :=
  sops.any SemBuf.undo → (w.undos pid).isSome

/-- Each operation is possible on the values before the call if and only if each is on the sums of
what comes before it, and then the adjustments fit. A caller that cannot record them has an
operation that is not possible in order, and one not possible at once unless every semaphore comes
back to its value and was last used by the caller. -/
structure Agrees (w : World) (sops : List SemBuf) (pid : ℕ) (values : ℕ → SemValue) : Prop where
  tests : Alive w sops pid → (AtOnce (ints values) sops ↔ InOrder (ints values) sops)
  fits : Alive w sops pid → InOrder (ints values) sops → ∀ i, UndoFits sops i
  dead : ¬ Alive w sops pid → ¬ InOrder (ints values) sops ∧
    (AtOnce (ints values) sops → ∀ s ∈ sops, (values s.semNum).lastPid = pid ∧
      (opsOn sops s.semNum).foldl cutAdd (ints values s.semNum) = ints values s.semNum)

lemma agrees_iff : Agrees w sops pid values ↔
    (Alive w sops pid →
      (sops.any (wouldBlock values) = false ↔ (execute (ints values) sops).isSome)) ∧
    (Alive w sops pid → (execute (ints values) sops).isSome → ∀ i, UndoFits sops i) ∧
    (¬ Alive w sops pid → execute (ints values) sops = none ∧
      (sops.any (wouldBlock values) = false → sops.foldl (applyOp pid) values = values)) := by
  rw [any_wouldBlock_iff, ← Option.not_isSome_iff_eq_none, execute_isSome_iff, foldl_applyOp_iff]
  exact ⟨fun h => ⟨h.tests, h.fits, h.dead⟩, fun h => ⟨h.1, h.2.1, h.2.2⟩⟩

lemma recordUndo_of_not_alive (hundos : w₁.undos = w.undos) (h : ¬ Alive w sops pid) :
    recordUndo w₁ semid sops pid = (w₁, .err .ESRCH) := by
  unfold Alive at h
  rw [Classical.not_imp, Option.not_isSome_iff_eq_none] at h
  rw [recordUndo, if_pos h.1, hundos, h.2]

lemma recordUndo_of_alive (semid : ℕ) (hundos : w₁.undos = w.undos) (h : Alive w sops pid) :
    (recordUndo w₁ semid sops pid).2 = .done sops.length ∧
      (recordUndo w₁ semid sops pid).1.table = w₁.table ∧
      (recordUndo w₁ semid sops pid).1.removed = w₁.removed ∧
      (sops.any undo → ∃ undos, w.undos pid = some undos ∧
        (recordUndo w₁ semid sops pid).1.undos = update w.undos pid
          (some (recordSemUndo undos semid (sops.foldl trackUndo fun _ => 0)))) ∧
      (sops.any undo = false → (recordUndo w₁ semid sops pid).1.undos = w.undos) := by
  unfold recordUndo
  by_cases hundo : sops.any undo
  · obtain ⟨undos, hsome⟩ := Option.isSome_iff_exists.mp (h hundo)
    rw [if_pos hundo, hundos, hsome]
    refine ⟨rfl, rfl, rfl, fun _ => ⟨undos, rfl, ?_⟩, fun hc => ?_⟩
    · simp only [setUndos, hundos]
    rw [hundo] at hc
    cases hc
  · rw [if_neg hundo]
    exact ⟨rfl, rfl, rfl, fun hc => absurd hc hundo, fun _ => hundos⟩

lemma applied_iff_of_alive (h : Alive w sops pid) {target : ℕ → ℤ}
    (hints : ints (sops.foldl (applyOp pid) values) = target) :
    Applied w semid sops pid array target
        (recordUndo (w.setValues semid array (sops.foldl (applyOp pid) values)) semid sops pid).1 ↔
      ∀ i, UndoFits sops i := by
  obtain ⟨-, htable, hremoved, hundone, hkept⟩ := recordUndo_of_alive semid (undos_setValues ..) h
  constructor
  · intro happlied i
    by_cases hundo : sops.any undo
    · obtain ⟨undos, adj, hsome, hrecord, hsum⟩ := happlied.undone hundo
      obtain ⟨undos', hsome', hrecord'⟩ := hundone hundo
      obtain rfl := Option.some.inj (hsome.symm.trans hsome')
      have hsame := update_injective _ _ (hrecord.symm.trans hrecord')
      rw [← toInt_trackUndo_iff, ← recordSemUndo_inj (Option.some.inj hsame)]
      exact hsum i
    · rw [UndoFits, undoSum_eq_zero fun s hs hs' => hundo (any_eq_true.mpr ⟨s, hs, hs'.1⟩)]
      omega
  · intro hfits
    refine ⟨⟨_, htable, hints⟩, hremoved, fun hundo => ?_, hkept⟩
    obtain ⟨undos, hsome, hrecord⟩ := hundone hundo
    exact ⟨undos, _, hsome, hrecord, fun i => toInt_trackUndo_iff i |>.mpr (hfits i)⟩

section

variable (h : admitted w semid sops cred = .ok (array, values))
include h

lemma stepSemop_of_admitted :
    stepSemop w semid sops cred pid =
      if sops.any (wouldBlock values) then
        (w, if sops.any nowait then .err .EAGAIN else .wait)
      else recordUndo (w.setValues semid array (sops.foldl (applyOp pid) values))
        semid sops pid := by
  rw [stepSemop, h]

lemma refused_of_blocked (hblock : sops.any (wouldBlock values)) :
    Refused w semid sops cred pid := by
  rw [Refused, stepSemop_of_admitted h, if_pos hblock]
  refine ⟨fun n hn => ?_, rfl⟩
  split_ifs at hn

lemma setValues_eq_self_iff (vs : ℕ → SemValue) : w.setValues semid array vs = w ↔ vs = values := by
  obtain ⟨htable, hpayload, -⟩ := admitted_ok h
  constructor
  · intro heq
    have hat := congrFun (congrArg table heq) semid
    simp only [setValues, update_self, htable, Option.some.injEq] at hat
    have hvs := congrArg SemArray.payload hat
    exact Option.some.inj (hvs.trans hpayload)
  · rintro rfl
    rw [setValues, ← hpayload, ← htable, update_eq_self]

end

lemma Meets.agrees (h : Meets w semid sops cred pid)
    (hadmitted : admitted w semid sops cred = .ok (array, values)) : Agrees w sops pid values := by
  -- a call that means something is not stopped by the tests
  have hpasses {target : ℕ → ℤ} (hexec : execute (ints values) sops = some target) :
      sops.any (wouldBlock values) = false := by
    by_contra hblock
    exact (refused_of_blocked hadmitted (by simpa using hblock)).1 _
      (h.runs array values target hadmitted hexec).1
  have hstep (hpass : sops.any (wouldBlock values) = false) :
      stepSemop w semid sops cred pid =
        recordUndo (w.setValues semid array (sops.foldl (applyOp pid) values)) semid sops pid := by
    rw [stepSemop_of_admitted hadmitted, if_neg (by simp [hpass])]
  refine agrees_iff.mpr
    ⟨fun halive => ⟨fun hpass => ?_, fun hsome => ?_⟩, fun halive hsome => ?_, fun hdead => ?_⟩
  · by_contra hnone
    have hrefused := h.stops array values hadmitted (by simpa using hnone)
    rw [Refused, hstep hpass] at hrefused
    exact hrefused.1 _ (recordUndo_of_alive semid (undos_setValues ..) halive).1
  · obtain ⟨target, hexec⟩ := Option.isSome_iff_exists.mp hsome
    exact hpasses hexec
  · obtain ⟨target, hexec⟩ := Option.isSome_iff_exists.mp hsome
    have happlied := (h.runs array values target hadmitted hexec).2
    rw [hstep (hpasses hexec)] at happlied
    exact (applied_iff_of_alive halive (ints_foldl_applyOp hexec)).mp happlied
  have hnone : execute (ints values) sops = none := by
    by_contra hsome
    obtain ⟨target, hexec⟩ := Option.ne_none_iff_exists'.mp hsome
    have hdone := (h.runs array values target hadmitted hexec).1
    rw [hstep (hpasses hexec), recordUndo_of_not_alive (undos_setValues ..) hdead] at hdone
    cases hdone
  refine ⟨hnone, fun hpass => ?_⟩
  have hsame := (h.stops array values hadmitted hnone).2
  rw [hstep hpass, recordUndo_of_not_alive (undos_setValues ..) hdead] at hsame
  exact (setValues_eq_self_iff hadmitted _).mp hsame

lemma meets_of_agrees (h : ∀ array values, admitted w semid sops cred = .ok (array, values) →
    Agrees w sops pid values) : Meets w semid sops cred pid where
  refused e he := by
    rw [Refused, stepSemop, he]
    exact ⟨fun n hn => (by cases hn), rfl⟩
  runs array values target hadmitted hexec := by
    obtain ⟨htests, hfits, hdead'⟩ := agrees_iff.mp (h array values hadmitted)
    have halive : Alive w sops pid := by
      by_contra hdead
      rw [(hdead' hdead).1] at hexec
      cases hexec
    have hsome : (execute (ints values) sops).isSome := by rw [hexec]; rfl
    have hpass := (htests halive).mpr hsome
    rw [stepSemop_of_admitted hadmitted, if_neg (by simp [hpass])]
    exact ⟨(recordUndo_of_alive semid (undos_setValues ..) halive).1,
      (applied_iff_of_alive halive (ints_foldl_applyOp hexec)).mpr (hfits halive hsome)⟩
  stops array values hadmitted hexec := by
    obtain ⟨htests, -, hdead⟩ := agrees_iff.mp (h array values hadmitted)
    by_cases hblock : sops.any (wouldBlock values)
    · exact refused_of_blocked hadmitted hblock
    by_cases halive : Alive w sops pid
    · have hsome := (htests halive).mp (by simpa using hblock)
      rw [hexec] at hsome
      cases hsome
    have hsame := (hdead halive).2 (by simpa using hblock)
    rw [Refused, stepSemop_of_admitted hadmitted, if_neg hblock,
      recordUndo_of_not_alive (undos_setValues ..) halive]
    exact ⟨fun n hn => (by cases hn), (setValues_eq_self_iff hadmitted _).mpr hsame⟩

end call

/-! ### Calls without repetition -/

/-- The operation neither overflows nor finds a value below the range. -/
def InRange (values : ℕ → SemValue) (s : SemBuf) : Prop :=
  0 ≤ ints values s.semNum ∧ ints values s.semNum + s.semOp.toInt ≤ 32767 ∧
    s.semOp.toInt ≠ -32768

section

variable (hnodup : (sops.map SemBuf.semNum).Nodup) (hrange : ∀ s ∈ sops, InRange values s)

include hnodup hrange

lemma atOnce_iff_inOrder : AtOnce (ints values) sops ↔ InOrder (ints values) sops := by
  have hposs {s : SemBuf} (h : InRange values s) :
      (s.semOp.toInt = 0 → ints values s.semNum = 0) ∧ (-32768 < s.semOp.toInt →
        s.semOp.toInt < 0 → 0 ≤ ints values s.semNum + s.semOp.toInt) ↔
      Possible (ints values s.semNum) s.semOp.toInt := by
    obtain ⟨hlow, hhigh, hne⟩ := h
    have hop := toInt_bounds s.semOp
    unfold Possible
    split_ifs <;> omega
  -- no operation comes before another on its semaphore
  have hsum {before after : List SemBuf} {s : SemBuf} (h : sops = before ++ s :: after) :
      opsOn before s.semNum = [] := by
    rw [h, map_append, map_cons] at hnodup
    have hdisj := (nodup_append.mp hnodup).2.2
    simpa [opsOn] using fun s' hs' heq =>
      hdisj _ (mem_map_of_mem hs') _ mem_cons_self heq
  constructor
  · intro h before s after hsplit
    have hs : s ∈ sops := by simp [hsplit]
    rw [hsum hsplit, sum_nil, add_zero]
    exact (hposs (hrange s hs)).mp (h s hs)
  · intro h s hs
    obtain ⟨before, after, hsplit⟩ := append_of_mem hs
    have := h before s after hsplit
    rw [hsum hsplit, sum_nil, add_zero] at this
    exact (hposs (hrange s hs)).mpr this

lemma undoFits_of_nodup (i : ℕ) : UndoFits sops i := by
  induction sops with
  | nil =>
    rw [UndoFits, undoSum_eq_zero (by simp)]
    omega
  | cons s sops ih =>
    rw [map_cons, nodup_cons] at hnodup
    rw [UndoFits, undoSum_cons]
    by_cases hi : s.undo ∧ s.semNum = i
    · have hbounds := toInt_bounds s.semOp
      have hne := (hrange s (.head _)).2.2
      have hrest : undoSum sops i = 0 := undoSum_eq_zero fun s' hs' hc =>
        hnodup.1 ((hi.2.trans hc.2.symm) ▸ mem_map_of_mem hs')
      rw [if_pos hi, hrest]
      omega
    · rw [if_neg hi, zero_add]
      exact ih hnodup.2 fun s' hs' => hrange s' (.tail _ hs')

end

def oneSem : World where
  table := fun semid => if semid = 1 then some ⟨1, 0, 0, 0, 0, 0, false, some fun _ => ⟨1, 0⟩⟩
    else none
  removed := fun _ => false
  undos := fun pid => if pid = 7 then some fun _ => none else none

lemma admitted_oneSem (hne : sops ≠ []) (h : ∀ s ∈ sops, s.semNum = 0) :
    admitted oneSem 1 sops ⟨0, 0⟩ =
      .ok (⟨1, 0, 0, 0, 0, 0, false, some fun _ => ⟨1, 0⟩⟩, fun _ => ⟨1, 0⟩) := by
  have hbig : (sops.any fun s => decide (1 ≤ s.semNum)) = false := by
    rw [any_eq_false]
    intro s hs
    simp [h s hs]
  simp [admitted, requireSemExists, requireCanWriteSem, oneSem, hne, hbig]

end TxKernel.SysvSem
