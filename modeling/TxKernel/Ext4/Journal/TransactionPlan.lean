import TxKernel.Ext4.BioGraph
import TxKernel.Ext4.Journal.Ring

/-!
The three graphs that carry a transaction out: ordered data, the journal record with its commit
block, and the home blocks with the clean superblock. The pool that lends the pages is left out.
-/

namespace TxKernel.Ext4

open List

/-! ### Plans -/

inductive JournalBio
  | write (lba : LbaRange) (page : Page4K)
  | fence
  deriving DecidableEq

inductive JournalTransactionPlanError
  | emptyMetadata
  | tooManyNodes
  | graph (error : BioGraphError)
  deriving DecidableEq

/-- A closed transaction before it is submitted. Its lists are in memory, so their sizes fit. -/
structure JournalTransactionPlan where
  sequence : UInt32
  dataWrites : List JournalBio
  descriptor : JournalBio
  metadataWrites : List JournalBio
  revokes : List JournalBio
  commit : JournalBio
  checkpointWrites : List JournalBio
  activation : Option JournalBio
  clean : Option JournalBio
  size : dataWrites.length + metadataWrites.length + revokes.length + checkpointWrites.length <
    2 ^ 63

structure GraphBuilder where
  nextId : ℕ
  nodes : List (BioNode JournalBio)
  dependencies : List BioDependency

namespace GraphBuilder

def new : GraphBuilder := ⟨1, [], []⟩

def push (b : GraphBuilder) (bio : JournalBio) :
    Except JournalTransactionPlanError (ℕ × GraphBuilder) :=
  if b.nextId + 1 < 2 ^ 64 then
    .ok (b.nextId, { b with nextId := b.nextId + 1, nodes := b.nodes ++ [⟨b.nextId, bio⟩] })
  else .error .tooManyNodes

def pushAll (b : GraphBuilder) :
    List JournalBio → Except JournalTransactionPlanError (List ℕ × GraphBuilder)
  | [] => .ok ([], b)
  | bio :: bios => do
    let (id, b) ← b.push bio
    let (ids, b) ← b.pushAll bios
    return (id :: ids, b)

def dependsOn (b : GraphBuilder) (before after : ℕ) : GraphBuilder :=
  { b with dependencies := b.dependencies ++ [⟨before, after⟩] }

def dependOn (b : GraphBuilder) (befores : List ℕ) (after : ℕ) : GraphBuilder :=
  befores.foldl (fun b before => b.dependsOn before after) b

def finish (b : GraphBuilder) : Except JournalTransactionPlanError (BioGraph JournalBio) :=
  match BioGraph.new b.nodes b.dependencies with
  | .ok graph => .ok graph
  | .error e => .error (.graph e)

end GraphBuilder

namespace JournalTransactionPlan

open GraphBuilder

def containsDataWrites (plan : JournalTransactionPlan) : Bool := !plan.dataWrites.isEmpty

def dataGraph (plan : JournalTransactionPlan) :
    Except JournalTransactionPlanError (BioGraph JournalBio) := do
  let (dataIds, b) ← GraphBuilder.new.pushAll plan.dataWrites
  let (fenceId, b) ← b.push .fence
  (b.dependOn dataIds fenceId).finish

def pushActivation (plan : JournalTransactionPlan) (b : GraphBuilder) :
    Except JournalTransactionPlanError (Option ℕ × GraphBuilder) :=
  match plan.activation with
  | none => .ok (none, b)
  | some page => do
    let (activation, b) ← b.push page
    let (fence, b) ← b.push .fence
    return (some fence, b.dependsOn activation fence)

/-- The journal record; the commit block waits for all the rest of it. -/
def commitGraphAfterData (plan : JournalTransactionPlan) :
    Except JournalTransactionPlanError (BioGraph JournalBio) := do
  let (activationFence, b) ← plan.pushActivation GraphBuilder.new
  let (descriptor, b) ← b.push plan.descriptor
  let b := b.dependOn activationFence.toList descriptor
  let (metadataIds, b) ← b.pushAll plan.metadataWrites
  let (revokeIds, b) ← b.pushAll plan.revokes
  let (journalFence, b) ← b.push .fence
  let b := b.dependOn (descriptor :: (metadataIds ++ revokeIds)) journalFence
  let (commit, b) ← b.push plan.commit
  let b := b.dependsOn journalFence commit
  let (commitFlush, b) ← b.push .fence
  (b.dependsOn commit commitFlush).finish

def pushClean (plan : JournalTransactionPlan) (checkpointFence : ℕ) (b : GraphBuilder) :
    Except JournalTransactionPlanError GraphBuilder :=
  match plan.clean with
  | none => .ok b
  | some page => do
    let (clean, b) ← b.push page
    let b := b.dependsOn checkpointFence clean
    let (cleanFlush, b) ← b.push .fence
    return b.dependsOn clean cleanFlush

def checkpointGraphAfterCommit (plan : JournalTransactionPlan) :
    Except JournalTransactionPlanError (Option (BioGraph JournalBio)) :=
  if plan.checkpointWrites = [] ∧ plan.clean = none then .ok none
  else do
    let (homeIds, b) ← GraphBuilder.new.pushAll plan.checkpointWrites
    let (checkpointFence, b) ← b.push .fence
    let b := b.dependOn homeIds checkpointFence
    let b ← plan.pushClean checkpointFence b
    let graph ← b.finish
    return some graph

end JournalTransactionPlan

/-! ### What the builders build -/

def numbered (bios : List JournalBio) : List (BioNode JournalBio) :=
  bios.mapIdx fun i bio => ⟨i + 1, bio⟩

@[simp] lemma length_numbered (bios : List JournalBio) : (numbered bios).length = bios.length := by
  simp [numbered]

lemma getElem?_numbered (bios : List JournalBio) (i : ℕ) :
    (numbered bios)[i]? = bios[i]?.map fun bio => ⟨i + 1, bio⟩ := by
  simp [numbered]

def edgesTo (befores : List ℕ) (after : ℕ) : List BioDependency := befores.map fun b => ⟨b, after⟩

namespace GraphBuilder

def built (bios : List JournalBio) (ds : List BioDependency) : GraphBuilder :=
  ⟨bios.length + 1, numbered bios, ds⟩

variable {bios : List JournalBio} {ds : List BioDependency}

lemma new_eq : GraphBuilder.new = built [] [] := rfl

lemma push_built (bio : JournalBio) (h : bios.length + 2 < 2 ^ 64) :
    (built bios ds).push bio = .ok (bios.length + 1, built (bios ++ [bio]) ds) := by
  rw [push, if_pos (by simpa [built] using h)]
  simp [built, numbered, mapIdx_append]

lemma pushAll_built (bs : List JournalBio) (h : bios.length + bs.length + 1 < 2 ^ 64) :
    (built bios ds).pushAll bs
      = .ok (range' (bios.length + 1) bs.length, built (bios ++ bs) ds) := by
  induction bs generalizing bios with
  | nil => simp [pushAll]
  | cons bio bs ih =>
    rw [length_cons] at h
    rw [pushAll, push_built bio (by omega), ok_bind]
    simp only
    rw [ih (by simp; omega)]
    simp [range'_succ]

lemma dependOn_built (befores : List ℕ) (after : ℕ) :
    (built bios ds).dependOn befores after = built bios (ds ++ edgesTo befores after) := by
  induction befores generalizing ds with
  | nil => simp [dependOn, edgesTo]
  | cons b bs ih =>
    have := @ih (ds ++ [⟨b, after⟩])
    simp only [dependOn, dependsOn, built, foldl_cons, edgesTo, map_cons] at this ⊢
    rw [this, append_assoc]
    rfl

lemma dependsOn_built (before after : ℕ) :
    (built bios ds).dependsOn before after = built bios (ds ++ [⟨before, after⟩]) := rfl

lemma finish_built (h : ∀ d ∈ ds, 1 ≤ d.before ∧ d.before < d.after ∧ d.after ≤ bios.length) :
    (built bios ds).finish = .ok ⟨numbered bios, ds⟩ := by
  have hforward : BioGraph.Forward (numbered bios) ds := by
    refine ⟨fun i node hi => ?_, by simpa using h⟩
    rw [getElem?_numbered, Option.map_eq_some_iff] at hi
    obtain ⟨bio, -, rfl⟩ := hi
    rfl
  rw [finish, built, BioGraph.new_of_forward hforward]

end GraphBuilder

namespace JournalTransactionPlan

open GraphBuilder

variable (plan : JournalTransactionPlan) {page : JournalBio}

lemma dataGraph_eq : plan.dataGraph = .ok ⟨numbered (plan.dataWrites ++ [.fence]),
    edgesTo (range' 1 plan.dataWrites.length) (plan.dataWrites.length + 1)⟩ := by
  have hsize := plan.size
  rw [dataGraph, new_eq, pushAll_built _ (by simp; omega), ok_bind]
  simp only [length_nil, nil_append]
  rw [push_built _ (by omega), ok_bind]
  rw [dependOn_built, nil_append, finish_built]
  simp only [edgesTo, mem_map, mem_range'_1, length_append, length_singleton]
  rintro d ⟨i, hi, rfl⟩
  simp only
  omega

def commitGraphWith (page : JournalBio) : BioGraph JournalBio where
  nodes := numbered ([page, .fence, plan.descriptor] ++ plan.metadataWrites ++ plan.revokes
    ++ [.fence, plan.commit, .fence])
  dependencies :=
    let jf := 4 + plan.metadataWrites.length + plan.revokes.length
    [⟨1, 2⟩, ⟨2, 3⟩] ++ edgesTo (List.range' 3
      (1 + plan.metadataWrites.length + plan.revokes.length)) jf ++ [⟨jf, jf + 1⟩, ⟨jf + 1, jf + 2⟩]

lemma journal_ids (m r : ℕ) : 3 :: (range' 4 m ++ range' (3 + m + 1) r) = range' 3 (1 + m + r) := by
  rw [show 3 + m + 1 = 4 + m by omega, range'_append_1, show 1 + m + r = m + r + 1 by omega,
    range'_succ]

lemma commitGraphAfterData_eq (h : plan.activation = some page) :
    plan.commitGraphAfterData = .ok (plan.commitGraphWith page) := by
  have hsize := plan.size
  rw [commitGraphAfterData, pushActivation, h, new_eq]
  simp only
  rw [push_built _ (by simp), ok_bind]
  rw [push_built _ (by simp), ok_bind, dependsOn_built, pure_eq_ok, ok_bind]
  simp only [length_singleton, cons_append, nil_append, Option.toList_some]
  rw [push_built _ (by simp), ok_bind]
  rw [dependOn_built, pushAll_built _ (by simp; omega), ok_bind]
  rw [pushAll_built _ (by simp; omega), ok_bind]
  rw [push_built _ (by simp; omega), ok_bind]
  rw [dependOn_built, push_built _ (by simp; omega), ok_bind]
  rw [dependsOn_built, push_built _ (by simp; omega), ok_bind]
  rw [dependsOn_built, finish_built]
  · simp only [commitGraphWith, Except.ok.injEq, BioGraph.mk.injEq]
    refine ⟨by simp, ?_⟩
    simp only [length_append, length_cons, length_nil, Nat.zero_add, Nat.reduceAdd, journal_ids]
    simp [edgesTo, show 3 + plan.metadataWrites.length + plan.revokes.length + 1
        = 4 + plan.metadataWrites.length + plan.revokes.length by omega]
  · intro d hd
    simp only [edgesTo, mem_append, mem_map, mem_cons, not_mem_nil, or_false,
      mem_range'_1, length_append, length_cons, length_nil] at hd ⊢
    rcases hd with (((rfl | ⟨_, rfl, rfl⟩) | ⟨i, hi, rfl⟩) | rfl) | rfl <;> simp only <;> omega

def checkpointGraphWith (page : JournalBio) : BioGraph JournalBio where
  nodes := numbered (plan.checkpointWrites ++ [.fence, page, .fence])
  dependencies :=
    let n := plan.checkpointWrites.length
    edgesTo (List.range' 1 n) (n + 1) ++ [⟨n + 1, n + 2⟩, ⟨n + 2, n + 3⟩]

lemma checkpointGraphAfterCommit_eq (h : plan.clean = some page) :
    plan.checkpointGraphAfterCommit = .ok (some (plan.checkpointGraphWith page)) := by
  have hsize := plan.size
  rw [checkpointGraphAfterCommit, if_neg (by simp [h]), new_eq,
    pushAll_built _ (by simp; omega), ok_bind]
  simp only [length_nil, nil_append, Nat.zero_add]
  rw [push_built _ (by omega), ok_bind]
  rw [dependOn_built, pushClean, h]
  simp only [nil_append]
  rw [push_built _ (by simp; omega), ok_bind]
  rw [dependsOn_built, push_built _ (by simp; omega), ok_bind]
  rw [dependsOn_built, pure_eq_ok, ok_bind, finish_built]
  · simp [checkpointGraphWith]
  intro d hd
  simp only [edgesTo, mem_append, mem_map, mem_cons, not_mem_nil, or_false,
    mem_range'_1, length_append, length_cons, length_nil] at hd ⊢
  rcases hd with (⟨i, hi, rfl⟩ | rfl) | rfl <;> simp only <;> omega

/-- In whatever order the operations complete, `bio` comes behind those of `before`. -/
def Waits (before : List JournalBio) (bio : JournalBio) (after : List JournalBio)
    (g : BioGraph JournalBio) : Prop :=
  g.nodes = numbered (before ++ bio :: after) ∧ ∀ t : ℕ → ℕ,
    (∀ d ∈ g.dependencies, t d.before < t d.after) →
      ∀ i < before.length, t (i + 1) < t (before.length + 1)

/-- **Write-ahead order**: a fence is behind the ordered data, the commit block behind all of its
record and a fence, the clean superblock behind the home blocks and a fence. -/
theorem write_ahead (plan : JournalTransactionPlan) (active clean : JournalBio) :
    (∃ g, plan.dataGraph = .ok g ∧ Waits plan.dataWrites .fence [] g) ∧
    (∃ g, commitGraphAfterData { plan with activation := some active } = .ok g ∧
      Waits ([active, .fence, plan.descriptor] ++ plan.metadataWrites ++ plan.revokes ++ [.fence])
        plan.commit [.fence] g) ∧
    ∃ g, checkpointGraphAfterCommit { plan with clean := some clean } = .ok (some g) ∧
      Waits (plan.checkpointWrites ++ [.fence]) clean [.fence] g := by
  refine ⟨⟨_, plan.dataGraph_eq, rfl, fun t ht i hi => ?_⟩,
    ⟨_, commitGraphAfterData_eq _ rfl, by simp [commitGraphWith], fun t ht i hi => ?_⟩,
    ⟨_, checkpointGraphAfterCommit_eq _ rfl, by simp [checkpointGraphWith], fun t ht i hi => ?_⟩⟩
  · exact ht ⟨i + 1, _⟩ (mem_map_of_mem (by simp; omega))
  · have hrecord := fun j hj => ht ⟨j, _⟩
      (mem_append_left _ (mem_append_right _ (mem_map_of_mem hj)))
    have hactive := ht ⟨1, 2⟩ (by simp [commitGraphWith])
    have hdescriptor := ht ⟨2, 3⟩ (by simp [commitGraphWith])
    have hcommit := ht _ (mem_append_right _ mem_cons_self)
    simp only [length_append, length_cons, length_nil, mem_range'_1] at hi hrecord hcommit ⊢
    grind
  · have hhome := fun j hj => ht ⟨j, _⟩ (mem_append_left _ (mem_map_of_mem hj))
    have hclean := ht _ (mem_append_right _ mem_cons_self)
    simp only [length_append, length_singleton, mem_range'_1] at hi hhome hclean ⊢
    grind

end JournalTransactionPlan

end TxKernel.Ext4
