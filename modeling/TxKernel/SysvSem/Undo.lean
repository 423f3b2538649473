import TxKernel.Library.Runs
import TxKernel.SysvSem.Semop

/-!
Histories of semaphore calls and process exits. The adjustments that a process owes are followed
beside the state as numbers; the code keeps them in 16 bits and adds with wrap-around.
-/

namespace TxKernel.SysvSem

open List Function Option World Int Runs

/-! ### The other operations -/

def stepSetval (w : World) (semid semnum : ℕ) (setval : ℤ) (cred : Cred) (process : Option ℕ) :
    World × Outcome :=
  match w.requireSemExists semid with
  | .error e => (w, .err e)
  | .ok array =>
    match requireCanWriteSem array cred with
    | .error e => (w, .err e)
    | .ok _ =>
      if array.nsems ≤ semnum then (w, .err .EINVAL)
      else if ¬ (0 ≤ setval ∧ setval ≤ 32767) then (w, .err .ERANGE)
      else
        match array.payload with
        | none => (w, .err .EIDRM)
        | some values =>
          (w.setValues semid array (Function.update values semnum
            ⟨Int16.ofInt setval, process.getD (values semnum).lastPid⟩), .done 0)

def stepSetall (w : World) (semid : ℕ) (setValues : List ℕ) (cred : Cred) (process : Option ℕ) :
    World × Outcome :=
  match w.requireSemExists semid with
  | .error e => (w, .err e)
  | .ok array =>
    match requireCanWriteSem array cred with
    | .error e => (w, .err e)
    | .ok _ =>
      if setValues.length ≠ array.nsems ∨ (setValues.any fun v => 32767 < v) then
        (w, .err .ERANGE)
      else
        match array.payload with
        | none => (w, .err .EIDRM)
        | some values =>
          (w.setValues semid array (fun i =>
            match setValues[i]? with
            | some v => ⟨Int16.ofInt v, process.getD (values i).lastPid⟩
            | none => values i), .done 0)

def undoArray (array : SemArray) (adjustments : ℕ → Int16) : SemArray :=
  { array with
    payload := array.payload.map fun values i =>
      if adjustments i ≠ 0 ∧ i < array.nsems then
        { values i with val := (values i).val + adjustments i }
      else values i }

/-- The exit of a process. Its records are of different arrays, so that their order does not
matter. -/
def stepSemUndo (w : World) (pid : ℕ) : World :=
  match w.undos pid with
  | none => w
  | some undos =>
    { w with
      table := fun semid =>
        match undos semid with
        | none => w.table semid
        | some adjustments => (w.table semid).map fun array => undoArray array adjustments
      undos := Function.update w.undos pid (some fun _ => none) }

def World.HasValue (w : World) (semid i : ℕ) (v : Int16) : Prop :=
  ∃ array values, w.table semid = some array ∧ array.payload = some values ∧ i < array.nsems ∧
    (values i).val = v

def World.recorded (w : World) (pid semid i : ℕ) : ℤ :=
  ((w.undos pid).bind fun undos => undos semid).elim 0 fun adj => (adj i).toInt

/-! ### Histories -/

inductive Op where
  | semop (semid : ℕ) (sops : List SemBuf) (cred : Cred) (pid : ℕ)
  | setval (semid semnum : ℕ) (val : ℤ) (cred : Cred) (process : Option ℕ)
  | setall (semid : ℕ) (values : List ℕ) (cred : Cred) (process : Option ℕ)
  | exit (pid : ℕ)

/-- The state, and what each process owes each semaphore. -/
structure History where
  world : World
  owed : ℕ → ℕ → ℕ → ℤ

def owe (owed : ℕ → ℕ → ℕ → ℤ) (semid : ℕ) (sops : List SemBuf) (pid : ℕ) : ℕ → ℕ → ℕ → ℤ :=
  Function.update owed pid
    (Function.update (owed pid) semid fun i => owed pid semid i - undoSum sops i)

namespace History

def step (h : History) : Op → History × Outcome
  | .semop semid sops cred pid =>
    let r := stepSemop h.world semid sops cred pid
    match r.2 with
    | .done _ => (⟨r.1, owe h.owed semid sops pid⟩, r.2)
    | _ => (⟨r.1, h.owed⟩, r.2)
  | .setval semid semnum val cred process =>
    let r := stepSetval h.world semid semnum val cred process
    (⟨r.1, h.owed⟩, r.2)
  | .setall semid values cred process =>
    let r := stepSetall h.world semid values cred process
    (⟨r.1, h.owed⟩, r.2)
  | .exit pid => (⟨stepSemUndo h.world pid, Function.update h.owed pid fun _ _ => 0⟩, .done 0)

def decrements (sops : List SemBuf) (i : ℕ) : ℤ :=
  ((sops.filter fun s => s.semNum = i).map fun s => max 0 (-s.semOp.toInt)).sum

/-- In a call that passes its tests the decrements of a semaphore do not exceed its value together,
and what the process owes fits 16 bits; at an exit no value leaves the range. -/
def Fits (h : History) : Op → Prop
  | .semop semid sops cred pid => ∀ array values,
    admitted h.world semid sops cred = .ok (array, values) →
    sops.any (wouldBlock values) = false →
    ∀ i, decrements sops i ≤ ints values i ∧ -32768 ≤ h.owed pid semid i - undoSum sops i ∧
      h.owed pid semid i - undoSum sops i ≤ 32767
  | .exit pid => ∀ semid i v, h.world.HasValue semid i v →
    0 ≤ v.toInt + h.owed pid semid i ∧ v.toInt + h.owed pid semid i ≤ 32767
  | .setval .. | .setall .. => True

def InBounds (w : World) : Prop :=
  ∀ semid i v, w.HasValue semid i v → 0 ≤ v.toInt ∧ v.toInt ≤ 32767

/-- All values are in the range, and what is recorded is what is owed. -/
structure Sound (h : History) : Prop where
  range : InBounds h.world
  owed : ∀ pid semid i, h.world.recorded pid semid i = h.owed pid semid i

/-! ### Calls -/

section semop

variable {h : History} {semid : ℕ} {sops : List SemBuf} {cred : Cred} {pid : ℕ}
  {values : ℕ → SemValue} {array : SemArray}

lemma decrements_cons (s : SemBuf) (sops : List SemBuf) (i : ℕ) :
    decrements (s :: sops) i =
      (if s.semNum = i then max 0 (-s.semOp.toInt) else 0) + decrements sops i := by
  unfold decrements
  by_cases hi : s.semNum = i
  · rw [filter_cons_of_pos (by simpa using hi), if_pos hi, map_cons, sum_cons]
  · rw [filter_cons_of_neg (by simpa using hi), if_neg hi, zero_add]

lemma le_ints_applyOp (pid : ℕ) (values : ℕ → SemValue) (s : SemBuf) (i : ℕ) :
    ints values i - (if s.semNum = i then max 0 (-s.semOp.toInt) else 0) ≤
      ints (applyOp pid values s) i := by
  have hop := toInt_bounds s.semOp
  by_cases hi : s.semNum = i
  · subst hi
    have hval := toInt_bounds (values s.semNum).val
    have hints : ints values s.semNum = (values s.semNum).val.toInt := rfl
    have hnew : ints (applyOp pid values s) s.semNum = Int16.toInt
        (if 0 < s.semOp then saturatingAdd (values s.semNum).val s.semOp
          else if s.semOp < 0 then saturatingSub (values s.semNum).val (-s.semOp)
          else (values s.semNum).val) := by
      simp [ints, applyOp]
    rw [if_pos rfl, hnew, hints]
    split_ifs with hpos hneg
    · rw [saturatingAdd, toInt_clamp]
      omega
    · rw [saturatingSub, toInt_clamp, Int16.toInt_neg, bmod_def]
      omega
    · omega
  · have hsame : ints (applyOp pid values s) i = ints values i := by
      simp [ints, applyOp, update_of_ne (Ne.symm hi)]
    rw [if_neg hi, hsame]
    omega

lemma le_ints_foldl (i : ℕ) :
    ints values i - decrements sops i ≤ ints (sops.foldl (applyOp pid) values) i := by
  induction sops generalizing values with
  | nil => simp [decrements]
  | cons s sops ih =>
    have hstep := le_ints_applyOp pid values s i
    have hrest : ints (applyOp pid values s) i - decrements sops i ≤ _ := ih
    rw [foldl_cons, decrements_cons]
    omega

variable {v : Int16} {w : World} {vs : ℕ → SemValue}

lemma hasValue_setValues {id i : ℕ} (hv : (w.setValues semid array vs).HasValue id i v) :
    id = semid ∧ i < array.nsems ∧ (vs i).val = v ∨ w.HasValue id i v := by
  obtain ⟨found, values, htable, hpayload, hi, hval⟩ := hv
  by_cases hid : id = semid
  · subst hid
    simp only [setValues, update_self, some.injEq] at htable
    subst htable
    obtain rfl := some.inj hpayload
    exact .inl ⟨rfl, hi, hval⟩
  · simp only [setValues, update_of_ne hid] at htable
    exact .inr ⟨found, values, htable, hpayload, hi, hval⟩

lemma toInt_recordSemUndo (undos : Undos) (semid i : ℕ)
    (hfits : -32768 ≤ (undos semid).elim 0 (fun adj => (adj i).toInt) - undoSum sops i ∧
      (undos semid).elim 0 (fun adj => (adj i).toInt) - undoSum sops i ≤ 32767) :
    ((recordSemUndo undos semid (sops.foldl trackUndo fun _ => 0)) semid).elim 0
        (fun adj => (adj i).toInt) =
      (undos semid).elim 0 (fun adj => (adj i).toInt) - undoSum sops i := by
  have htrack : (sops.foldl trackUndo (fun _ => 0) i).toInt = (-undoSum sops i).bmod 65536 := by
    have hzero : (0 : Int16).toInt = 0 := rfl
    rw [toInt_foldl_trackUndo, hzero, zero_sub]
  unfold recordSemUndo
  rcases hu : undos semid with _ | u
  · simp only [hu, elim_none, update_self, elim_some] at hfits ⊢
    rw [htrack, bmod_def]
    omega
  simp only [hu, elim_some, update_self] at hfits ⊢
  have hadd : (if sops.foldl trackUndo (fun _ => 0) i ≠ 0 then
      u i + sops.foldl trackUndo (fun _ => 0) i else u i) =
      u i + sops.foldl trackUndo (fun _ => 0) i := by
    by_cases ha : sops.foldl trackUndo (fun _ => 0) i = 0
    · simp [ha]
    · rw [if_pos ha]
  rw [hadd, Int16.toInt_add, htrack, bmod_def, bmod_def]
  omega

lemma InBounds.setValues {w' : World} (hw : InBounds w)
    (hvs : ∀ i < array.nsems, 0 ≤ (vs i).val.toInt)
    (htable : w'.table = (w.setValues semid array vs).table) : InBounds w' := by
  intro id i v hv
  have hv : (w.setValues semid array vs).HasValue id i v := by
    unfold World.HasValue at hv ⊢
    rwa [htable] at hv
  rcases hasValue_setValues hv with ⟨-, hi, rfl⟩ | hv
  · exact ⟨hvs i hi, (toInt_bounds _).2⟩
  · exact hw id i v hv

lemma recorded_recordUndo {w₁ : World} (hundos : w₁.undos = h.world.undos)
    (halive : Alive h.world sops pid)
    (howed : ∀ pid semid i, h.world.recorded pid semid i = h.owed pid semid i)
    (hfits : ∀ i, -32768 ≤ h.owed pid semid i - undoSum sops i ∧
      h.owed pid semid i - undoSum sops i ≤ 32767) (pid' semid' i : ℕ) :
    (recordUndo w₁ semid sops pid).1.recorded pid' semid' i =
      owe h.owed semid sops pid pid' semid' i := by
  obtain ⟨-, -, -, hundone, hkept⟩ := recordUndo_of_alive semid hundos halive
  have howed' := howed pid' semid' i
  unfold recorded at howed' ⊢
  by_cases hundo : sops.any SemBuf.undo
  · obtain ⟨undos, hsome, hrecord⟩ := hundone hundo
    rw [hrecord]
    by_cases hpid : pid' = pid
    · subst hpid
      rw [hsome] at howed'
      simp only [owe, update_self, bind_some] at howed' ⊢
      by_cases hsemid : semid' = semid
      · subst hsemid
        rw [update_self, ← howed']
        exact toInt_recordSemUndo undos semid' i (by rw [howed']; exact hfits i)
      have hother : recordSemUndo undos semid (sops.foldl trackUndo fun _ => 0) semid' =
          undos semid' := by
        unfold recordSemUndo
        cases undos semid <;> exact update_of_ne hsemid _ _
      rw [update_of_ne hsemid, hother]
      exact howed'
    · simp only [owe, update_of_ne hpid]
      exact howed'
  · rw [hkept (by simpa using hundo), howed']
    have hzero (i : ℕ) : undoSum sops i = 0 :=
      undoSum_eq_zero fun s hs hs' => hundo (any_eq_true.mpr ⟨s, hs, hs'.1⟩)
    simp [owe, hzero]

/-- **A call** keeps the values in the range and what is owed on record. -/
lemma Sound.semop (hs : h.Sound) (hfits : h.Fits (.semop semid sops cred pid)) :
    (h.step (.semop semid sops cred pid)).1.Sound := by
  simp only [step]
  rcases hadmitted : admitted h.world semid sops cred with e | found
  · simp only [stepSemop, hadmitted]
    exact hs
  obtain ⟨array, values⟩ := found
  rw [stepSemop_of_admitted hadmitted]
  by_cases hblock : sops.any (wouldBlock values)
  · rw [if_pos hblock]
    by_cases hnowait : sops.any SemBuf.nowait
    · simp only [if_pos hnowait]
      exact hs
    · simp only [if_neg hnowait]
      exact hs
  rw [if_neg hblock]
  have hcall := hfits array values hadmitted (by simpa using hblock)
  have hundos : (h.world.setValues semid array (sops.foldl (applyOp pid) values)).undos =
    h.world.undos := rfl
  have hvs : ∀ i < array.nsems, 0 ≤ (sops.foldl (applyOp pid) values i).val.toInt := by
    intro i _
    have hle : ints values i - decrements sops i ≤
        (sops.foldl (applyOp pid) values i).val.toInt := le_ints_foldl i
    have hdec := (hcall i).1
    omega
  by_cases halive : Alive h.world sops pid
  · obtain ⟨hdone, htable, -, -, -⟩ := recordUndo_of_alive semid hundos halive
    simp only [hdone]
    exact ⟨hs.range.setValues hvs htable,
      recorded_recordUndo hundos halive hs.owed fun i => (hcall i).2⟩
  · rw [recordUndo_of_not_alive hundos halive]
    exact ⟨hs.range.setValues hvs rfl, hs.owed⟩

end semop

/-! ### Values that are set -/

section control

variable {h : History} {semid : ℕ} {cred : Cred} {process : Option ℕ} {w : World}

lemma toInt_ofInt_of_range {x : ℤ} (hlow : 0 ≤ x) (hhigh : x ≤ 32767) :
    (Int16.ofInt x).toInt = x := by
  have hsize : Int16.size = 65536 := rfl
  rw [Int16.toInt_ofInt, hsize, bmod_def]
  omega

lemma InBounds.le_values (hw : InBounds w) {array : SemArray} {values : ℕ → SemValue}
    (htable : w.table semid = some array) (hpayload : array.payload = some values) {i : ℕ}
    (hi : i < array.nsems) : 0 ≤ (values i).val.toInt :=
  (hw semid i _ ⟨array, values, htable, hpayload, hi, rfl⟩).1

def SetsValues (w : World) (semid : ℕ) (w' : World) : Prop :=
  w' = w ∨ ∃ array vs, w' = w.setValues semid array vs ∧ ∀ i < array.nsems, 0 ≤ (vs i).val.toInt

lemma Sound.setsValues (hs : h.Sound) {w' : World} (hw' : SetsValues h.world semid w') :
    Sound ⟨w', h.owed⟩ := by
  rcases hw' with rfl | ⟨array, vs, rfl, hvs⟩
  · exact hs
  · exact ⟨hs.range.setValues hvs rfl, hs.owed⟩

lemma stepSetval_setsValues (hw : InBounds w) (semnum : ℕ) (val : ℤ) :
    SetsValues w semid (stepSetval w semid semnum val cred process).1 := by
  unfold stepSetval
  split
  · exact .inl rfl
  rename_i array hfound
  split
  · exact .inl rfl
  split_ifs with hbig hrange
  · exact .inl rfl
  swap
  · exact .inl rfl
  rcases hpayload : array.payload with _ | values
  · exact .inl rfl
  refine .inr ⟨array, _, rfl, fun i hi => ?_⟩
  by_cases hsem : i = semnum
  · subst hsem
    rw [update_self, toInt_ofInt_of_range hrange.1 hrange.2]
    exact hrange.1
  · rw [update_of_ne hsem]
    exact hw.le_values (requireSemExists_ok hfound) hpayload hi

lemma stepSetall_setsValues (hw : InBounds w) (setValues : List ℕ) :
    SetsValues w semid (stepSetall w semid setValues cred process).1 := by
  unfold stepSetall
  split
  · exact .inl rfl
  rename_i array hfound
  split
  · exact .inl rfl
  split_ifs with hrange
  · exact .inl rfl
  rcases hpayload : array.payload with _ | values
  · exact .inl rfl
  refine .inr ⟨array, _, rfl, fun i hi => ?_⟩
  rcases hget : setValues[i]? with _ | v
  · exact hw.le_values (requireSemExists_ok hfound) hpayload hi
  have hle : v ≤ 32767 := by
    by_contra hlarge
    exact hrange (.inr (any_eq_true.mpr ⟨v, mem_of_getElem? hget, by simpa using hlarge⟩))
  simp only [toInt_ofInt_of_range (natCast_nonneg v) (by omega)]
  omega

end control

/-! ### Exits -/

section exit

variable {h : History} {w : World} {pid : ℕ}

def adjustment (w : World) (pid semid i : ℕ) : Int16 :=
  ((w.undos pid).bind fun undos => undos semid).elim 0 fun adj => adj i

lemma toInt_adjustment (w : World) (pid semid i : ℕ) :
    (adjustment w pid semid i).toInt = w.recorded pid semid i := by
  unfold adjustment recorded
  cases (w.undos pid).bind fun undos => undos semid <;> rfl

/-- **An exit** adds what is recorded, with wrap-around. -/
lemma hasValue_stepSemUndo (semid i : ℕ) (v' : Int16) :
    (stepSemUndo w pid).HasValue semid i v' ↔
      ∃ v, w.HasValue semid i v ∧ v' = v + adjustment w pid semid i := by
  unfold stepSemUndo adjustment
  rcases hundos : w.undos pid with _ | undos
  · simp
  rcases hadj : undos semid with _ | adj
  · simp [World.HasValue, hadj]
  have hval (array : SemArray) (values : ℕ → SemValue) (hi : i < array.nsems) :
      (if adj i ≠ 0 ∧ i < array.nsems then { values i with val := (values i).val + adj i }
        else values i).val = (values i).val + adj i := by
    by_cases hzero : adj i = 0
    · simp [hzero]
    · rw [if_pos ⟨hzero, hi⟩]
  simp only [World.HasValue, hadj, bind_some, elim_some]
  constructor
  · rintro ⟨array', values', htable, hpayload, hi, rfl⟩
    obtain ⟨array, hold, rfl⟩ := map_eq_some_iff.mp htable
    obtain ⟨values, hvalues, rfl⟩ := map_eq_some_iff.mp hpayload
    exact ⟨_, ⟨array, values, hold, hvalues, hi, rfl⟩, hval array values hi⟩
  rintro ⟨v, ⟨array, values, htable, hpayload, hi, rfl⟩, rfl⟩
  refine ⟨undoArray array adj, fun j => if adj j ≠ 0 ∧ j < array.nsems then
      { values j with val := (values j).val + adj j } else values j, ?_, ?_, hi,
    hval array values hi⟩
  · rw [htable, map_some]
  · rw [undoArray, hpayload, map_some]

lemma toInt_exit (hs : h.Sound) (hfits : h.Fits (.exit pid)) {semid i : ℕ}
    (hv : h.world.HasValue semid i v) :
    (v + adjustment h.world pid semid i).toInt = v.toInt + h.owed pid semid i := by
  have hrange := hfits semid i v hv
  rw [Int16.toInt_add, toInt_adjustment, hs.owed, bmod_def]
  omega

lemma Sound.exit (hs : h.Sound) (hfits : h.Fits (.exit pid)) : (h.step (.exit pid)).1.Sound where
  range := by
    intro semid i v' hv'
    obtain ⟨v, hv, rfl⟩ := (hasValue_stepSemUndo semid i v').mp hv'
    rw [toInt_exit hs hfits hv]
    exact hfits semid i v hv
  owed := by
    intro pid' semid i
    have howed := hs.owed pid' semid i
    simp only [step, stepSemUndo]
    by_cases hpid : pid' = pid
    · subst hpid
      rw [update_self]
      unfold recorded
      cases hundos : h.world.undos pid' with
      | none => simp [hundos]
      | some undos => simp
    · rw [update_of_ne hpid, ← howed]
      unfold recorded
      cases h.world.undos pid with
      | none => rfl
      | some undos => simp only [update_of_ne hpid]

end exit

/-! ### Runs -/

lemma Sound.step {h : History} {op : Op} (hs : h.Sound) (hfits : h.Fits op) :
    (h.step op).1.Sound := by
  cases op with
  | semop semid sops cred pid => exact hs.semop hfits
  | setval semid semnum val cred process =>
    exact hs.setsValues (stepSetval_setsValues hs.range semnum val)
  | setall semid values cred process =>
    exact hs.setsValues (stepSetall_setsValues hs.range values)
  | exit pid => exact hs.exit hfits

/-- **The range of the values**: where nothing overflows, every value stays in the range, and an
exit leaves each semaphore at its value plus what the process owes, clamped to the range. -/
theorem values_in_range (h : History) (hs : h.Sound) (ops : List Op)
    (hops : Runs.Allowed step Fits h ops) :
    InBounds (Runs.runSpec step h ops).1.world ∧
    ∀ pid, (Runs.runSpec step h ops).1.Fits (.exit pid) →
      ∀ semid i v, (Runs.runSpec step h ops).1.world.HasValue semid i v →
      ∃ v', (stepSemUndo (Runs.runSpec step h ops).1.world pid).HasValue semid i v' ∧
        v'.toInt = max 0 (min 32767 (v.toInt + (Runs.runSpec step h ops).1.owed pid semid i)) := by
  have hsound : (runSpec step h ops).1.Sound :=
    invariant Sound (fun _ _ hs hfits => hs.step hfits) ops hs hops
  refine ⟨hsound.range, fun pid hfits semid i v hv => ?_⟩
  have hrange := hfits semid i v hv
  refine ⟨_, (hasValue_stepSemUndo semid i _).mpr ⟨v, hv, rfl⟩, ?_⟩
  rw [toInt_exit hsound hfits hv]
  omega

/-! ### An exit that undoes too much -/

def oneHistory : History := ⟨oneSem, fun _ _ _ => 0⟩

lemma hasValue_oneSem {semid i : ℕ} (h : oneSem.HasValue semid i v) : v = 1 := by
  obtain ⟨array, values, htable, hpayload, -, rfl⟩ := h
  simp only [oneSem] at htable
  split_ifs at htable
  obtain rfl := some.inj htable
  obtain rfl := some.inj hpayload
  rfl

lemma sound_oneHistory : oneHistory.Sound := by
  refine ⟨fun semid i v hv => ?_, fun pid semid i => ?_⟩
  · rw [hasValue_oneSem hv]
    decide
  · simp only [oneHistory, recorded, oneSem]
    split_ifs <;> rfl

def increment : Op := .semop 1 [⟨0, 1, SEM_UNDO⟩] ⟨0, 0⟩ 7

lemma undoSum_increment (i : ℕ) : undoSum [⟨0, 1, SEM_UNDO⟩] i = if i = 0 then 1 else 0 := by
  rw [undoSum_cons, undoSum_eq_zero (by simp), add_zero]
  by_cases hi : i = 0
  · subst hi
    rfl
  · rw [if_neg hi, if_neg fun hc => hi hc.2.symm]

lemma fits_increment : oneHistory.Fits increment := by
  intro array values hadmitted hpass i
  have hvalues := Except.ok.inj (hadmitted.symm.trans (admitted_oneSem (by simp) (by simp)))
  obtain ⟨-, rfl⟩ := Prod.mk.inj hvalues
  have howed : oneHistory.owed 7 1 i = 0 := rfl
  have hdec : decrements [⟨0, 1, SEM_UNDO⟩] i = 0 := by
    by_cases hi : (0 : ℕ) = i
    · rw [decrements_cons, if_pos hi]
      rfl
    · rw [decrements_cons, if_neg hi]
      rfl
  have hone : ints (fun _ => ⟨1, 0⟩) i = 1 := rfl
  rw [howed, undoSum_increment, hdec, hone]
  split_ifs <;> omega

lemma hasValue_increment {semid i : ℕ}
    (h : (oneHistory.step increment).1.world.HasValue semid i v) : i = 0 ∧ v = 2 ∨ v = 1 := by
  rcases hasValue_setValues h with ⟨-, hi, rfl⟩ | h
  · have hzero : i = 0 := by
      simp only at hi
      omega
    subst hzero
    exact .inl ⟨rfl, by decide⟩
  · exact .inr (hasValue_oneSem h)

theorem values_in_range_oneHistory :
    ∃ v', (stepSemUndo (Runs.runSpec step oneHistory [increment]).1.world 7).HasValue 1 0 v' ∧
      v'.toInt = 1 := by
  have hfits : (runSpec step oneHistory [increment]).1.Fits (.exit 7) := by
    intro semid i v hv
    have howed : (runSpec step oneHistory [increment]).1.owed 7 semid i =
        if semid = 1 then 0 - undoSum [⟨0, 1, SEM_UNDO⟩] i else 0 := by
      by_cases hsemid : semid = 1
      · subst hsemid
        rfl
      have hother : owe (fun _ _ _ => 0) 1 [⟨0, 1, SEM_UNDO⟩] 7 7 semid i = 0 := by
        rw [owe, update_self, update_of_ne hsemid]
      rw [if_neg hsemid]
      exact hother
    have hone : (1 : Int16).toInt = 1 := rfl
    have htwo : (2 : Int16).toInt = 2 := rfl
    rw [howed, undoSum_increment]
    rcases hasValue_increment hv with ⟨rfl, rfl⟩ | rfl <;> split_ifs <;> omega
  obtain ⟨v', hv', hval⟩ := (values_in_range oneHistory sound_oneHistory [increment]
    ⟨fits_increment, trivial⟩).2 7 hfits 1 0 2 ⟨_, _, rfl, rfl, by decide, by decide⟩
  exact ⟨v', hv', hval⟩

/-- A process increments the semaphore and another one takes both: the exit of the first leaves it
at -1. -/
theorem exit_leaves_range :
    oneHistory.Sound ∧
    (Runs.runSpec step oneHistory
      [increment, .semop 1 [⟨0, -2, 0⟩] ⟨0, 0⟩ 8, .exit 7]).1.world.HasValue 1 0 (-1) :=
  ⟨sound_oneHistory, _, _, rfl, rfl, by decide, by decide⟩

end History

end TxKernel.SysvSem
