import Mathlib.Data.Int.Basic
import Mathlib.Data.List.Basic
import Mathlib.Logic.Function.Basic

/-!
Semaphore arrays, the operations on them, and the adjustments that a process leaves to be undone at
its exit. The wake source and the change counter of an array are not modelled; nothing here reads
them.
-/

namespace TxKernel.SysvSem

open Int16

/-! ### 16-bit arithmetic -/

def saturatingAdd (a b : Int16) : Int16 := Int16.ofIntClamp (a.toInt + b.toInt)

def saturatingSub (a b : Int16) : Int16 := Int16.ofIntClamp (a.toInt - b.toInt)

lemma toInt_bounds (a : Int16) : -32768 ≤ a.toInt ∧ a.toInt ≤ 32767 := by
  have hle := a.le_toInt
  have hlt := a.toInt_lt
  omega

lemma toInt_clamp (x : ℤ) : (ofIntClamp x).toInt = max (-32768) (min x 32767) := by
  have hmin : minValue.toInt = -32768 := by decide
  have hmax : maxValue.toInt = 32767 := by decide
  unfold ofIntClamp
  split_ifs with hlow hhigh
  · rw [toInt_ofIntLE]
    omega
  · omega
  · omega

variable {a : Int16}

lemma toInt_eq_zero_iff : a.toInt = 0 ↔ a = 0 := by
  rw [← toInt_zero, toInt_inj]

lemma toInt_pos_iff : 0 < a ↔ 0 < a.toInt := by
  rw [lt_iff_toInt_lt, toInt_zero]

lemma toInt_neg_iff : a < 0 ↔ a.toInt < 0 := by
  rw [lt_iff_toInt_lt, toInt_zero]

lemma toInt_neg_of_ne (h : a.toInt ≠ -32768) : (-a).toInt = -a.toInt := by
  have hbounds := toInt_bounds a
  rw [toInt_neg, Int.bmod_def]
  omega

/-! ### The state -/

@[ext]
structure SemValue where
  val : Int16
  lastPid : ℕ
  deriving DecidableEq

structure SemBuf where
  semNum : ℕ
  semOp : Int16
  semFlg : UInt16
  deriving DecidableEq

def IPC_NOWAIT : UInt16 := 0x800

def SEM_UNDO : UInt16 := 0x1000

namespace SemBuf

def nowait (s : SemBuf) : Bool := s.semFlg &&& IPC_NOWAIT ≠ 0

def undo (s : SemBuf) : Bool := s.semFlg &&& SEM_UNDO ≠ 0

end SemBuf

inductive Errno where
  | EINVAL
  | EIDRM
  | EACCES
  | EFBIG
  | EAGAIN
  | ESRCH
  | ERANGE
  deriving DecidableEq

structure Cred where
  euid : ℕ
  egid : ℕ

/-- An array of `nsems` semaphores. Only the values of these are read. -/
structure SemArray where
  nsems : ℕ
  mode : ℕ
  uid : ℕ
  gid : ℕ
  cuid : ℕ
  cgid : ℕ
  destroyed : Bool
  payload : Option (ℕ → SemValue)

/-- The undo records of a process: the adjustments for each array. -/
abbrev Undos := ℕ → Option (ℕ → Int16)

/-- All arrays, the ids of removed ones, and the undo records of the processes that have not
exited. -/
structure World where
  table : ℕ → Option SemArray
  removed : ℕ → Bool
  undos : ℕ → Option Undos

namespace World

variable (w : World)

def requireSemExists (semid : ℕ) : Except Errno SemArray :=
  match w.table semid with
  | some array => .ok array
  | none => if w.removed semid then .error .EIDRM else .error .EINVAL

def setValues (semid : ℕ) (array : SemArray) (values : ℕ → SemValue) : World :=
  { w with table := Function.update w.table semid (some { array with payload := some values }) }

def setUndos (pid : ℕ) (undos : Undos) : World :=
  { w with undos := Function.update w.undos pid (some undos) }

lemma undos_setValues (semid : ℕ) (array : SemArray) (values : ℕ → SemValue) :
    (w.setValues semid array values).undos = w.undos := rfl

end World

def requireCanWriteSem (array : SemArray) (cred : Cred) : Except Errno Unit :=
  if cred.euid = 0 then .ok ()
  else if cred.euid = array.uid ∨ cred.euid = array.cuid then
    if array.mode.testBit 7 then .ok () else .error .EACCES
  else if cred.egid = array.gid ∨ cred.egid = array.cgid then
    if array.mode.testBit 4 then .ok () else .error .EACCES
  else if array.mode.testBit 1 then .ok ()
  else .error .EACCES

/-! ### Operations -/

inductive Outcome where
  | done (applied : ℕ)
  | wait
  | err (errno : Errno)
  deriving DecidableEq

def wouldBlock (values : ℕ → SemValue) (s : SemBuf) : Bool :=
  let val := (values s.semNum).val
  if s.semOp = 0 then val ≠ 0 else s.semOp < 0 && val < -s.semOp

def applyOp (pid : ℕ) (values : ℕ → SemValue) (s : SemBuf) : ℕ → SemValue :=
  let val := (values s.semNum).val
  Function.update values s.semNum
    ⟨if 0 < s.semOp then saturatingAdd val s.semOp
      else if s.semOp < 0 then saturatingSub val (-s.semOp)
      else val, pid⟩

def trackUndo (adjustments : ℕ → Int16) (s : SemBuf) : ℕ → Int16 :=
  if s.undo then Function.update adjustments s.semNum (adjustments s.semNum - s.semOp)
  else adjustments

def recordSemUndo (undos : Undos) (semid : ℕ) (adjustments : ℕ → Int16) : Undos :=
  match undos semid with
  | some u => Function.update undos semid
      (some fun i => if adjustments i ≠ 0 then u i + adjustments i else u i)
  | none => Function.update undos semid (some adjustments)

/-- The array, its values and the tests that come before those of the values. -/
def admitted (w : World) (semid : ℕ) (sops : List SemBuf) (cred : Cred) :
    Except Errno (SemArray × (ℕ → SemValue)) :=
  if sops = [] then .error .EINVAL
  else
    match w.requireSemExists semid with
    | .error e => .error e
    | .ok array =>
      if array.destroyed then .error .EIDRM
      else
        match requireCanWriteSem array cred, array.payload with
        | .error e, _ => .error e
        | .ok _, none => .error .EIDRM
        | .ok _, some values =>
          if sops.any fun s => array.nsems ≤ s.semNum then .error .EFBIG
          else .ok (array, values)

def recordUndo (w : World) (semid : ℕ) (sops : List SemBuf) (pid : ℕ) : World × Outcome :=
  if sops.any SemBuf.undo then
    match w.undos pid with
    | none => (w, .err .ESRCH)
    | some undos => (w.setUndos pid (recordSemUndo undos semid (sops.foldl trackUndo fun _ => 0)),
        .done sops.length)
  else (w, .done sops.length)

def stepSemop (w : World) (semid : ℕ) (sops : List SemBuf) (cred : Cred) (pid : ℕ) :
    World × Outcome :=
  match admitted w semid sops cred with
  | .error e => (w, .err e)
  | .ok (array, values) =>
    if sops.any (wouldBlock values) then
      (w, if sops.any SemBuf.nowait then .err .EAGAIN else .wait)
    else recordUndo (w.setValues semid array (sops.foldl (applyOp pid) values)) semid sops pid

end TxKernel.SysvSem
