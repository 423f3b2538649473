import Mathlib.Data.List.Basic
import Mathlib.Logic.Function.Basic
import TxKernel.Ext4.Format

/-!
Graphs of block operations: nodes with distinct ids and dependencies between them, checked for
cycles. Builders number the nodes as they push them, and such graphs pass.
-/

namespace TxKernel.Ext4

open List Function

structure BioNode (α : Type) where
  id : ℕ
  bio : α

structure BioDependency where
  before : ℕ
  after : ℕ
  deriving DecidableEq

inductive BioGraphError
  | duplicateNode
  | unknownNode
  | selfDependency
  | cycle
  deriving DecidableEq

structure BioGraph (α : Type) where
  nodes : List (BioNode α)
  dependencies : List BioDependency

variable {α : Type}

def nodeIndex (nodes : List (BioNode α)) (id : ℕ) : Option ℕ :=
  nodes.findIdx? fun node => node.id == id

namespace BioGraph

def hasDuplicate : List (BioNode α) → Bool
  | [] => false
  | node :: nodes => nodes.any (fun other => other.id == node.id) || hasDuplicate nodes

def countIndegree (nodes : List (BioNode α)) :
    List BioDependency → (ℕ → ℕ) → Except BioGraphError (ℕ → ℕ)
  | [], indegree => .ok indegree
  | d :: ds, indegree =>
    match nodeIndex nodes d.before, nodeIndex nodes d.after with
    | some before, some after =>
      if before = after then .error .selfDependency
      else countIndegree nodes ds (Function.update indegree after (indegree after + 1))
    | _, _ => .error .unknownNode

def release (nodes : List (BioNode α)) (next : ℕ) : List BioDependency → (ℕ → ℕ) → ℕ → ℕ
  | [], indegree => indegree
  | d :: ds, indegree =>
    match nodeIndex nodes d.after with
    | some after =>
      if nodeIndex nodes d.before = some next then
        release nodes next ds (Function.update indegree after (indegree after - 1))
      else release nodes next ds indegree
    | none => release nodes next ds indegree

/-- Visit the nodes that wait for nothing, and count them. Each visit takes a node out, so the
number of nodes is fuel enough. -/
def visit (nodes : List (BioNode α)) (ds : List BioDependency) : ℕ → (ℕ → Bool) → (ℕ → ℕ) → ℕ → ℕ
  | 0, _, _, visited => visited
  | fuel + 1, remaining, indegree, visited =>
    match (List.range nodes.length).find? fun i => remaining i && indegree i == 0 with
    | none => visited
    | some next =>
      visit nodes ds fuel (Function.update remaining next false) (release nodes next ds indegree)
        (visited + 1)

def new (nodes : List (BioNode α)) (dependencies : List BioDependency) :
    Except BioGraphError (BioGraph α) := do
  if hasDuplicate nodes then
    throw .duplicateNode
  let indegree ← countIndegree nodes dependencies fun _ => 0
  if visit nodes dependencies nodes.length (fun _ => true) indegree 0 ≠ nodes.length then
    throw .cycle
  return { nodes, dependencies }

/-! ### Graphs in the order of their nodes -/

variable {nodes : List (BioNode α)} {ds : List BioDependency} {k : ℕ}

structure Forward (nodes : List (BioNode α)) (ds : List BioDependency) : Prop where
  ids : ∀ i node, nodes[i]? = some node → node.id = i + 1
  forward : ∀ d ∈ ds, 1 ≤ d.before ∧ d.before < d.after ∧ d.after ≤ nodes.length

lemma Forward.tail {d : BioDependency} (h : Forward nodes (d :: ds)) : Forward nodes ds :=
  ⟨h.ids, fun d hd => h.forward d (mem_cons_of_mem _ hd)⟩

lemma Forward.nodeIndex_eq (h : Forward nodes ds) {id : ℕ} (h1 : 1 ≤ id) (hn : id ≤ nodes.length) :
    nodeIndex nodes id = some (id - 1) := by
  have hlt : id - 1 < nodes.length := by omega
  rw [nodeIndex, findIdx?_eq_some_iff_getElem]
  refine ⟨hlt, ?_, ?_⟩
  · have := h.ids (id - 1) _ (getElem?_eq_getElem hlt)
    simp only [beq_iff_eq, this]
    omega
  intro j hj
  have := h.ids j _ (getElem?_eq_getElem (hj.trans hlt))
  simp only [beq_iff_eq, this]
  omega

lemma hasDuplicate_of_ids (h : ∀ i node, nodes[i]? = some node → node.id = k + i) :
    hasDuplicate nodes = false := by
  induction nodes generalizing k with
  | nil => rfl
  | cons node nodes ih =>
    have hrest := ih (k := k + 1) fun i n hn => by
      rw [h (i + 1) n (by simpa using hn)]
      omega
    have hnode : node.id = k := h 0 node rfl
    rw [hasDuplicate, hrest, Bool.or_false, any_eq_false]
    intro other hother
    obtain ⟨i, hi⟩ := getElem?_of_mem hother
    rw [beq_iff_eq, h (i + 1) other (by simpa using hi), hnode]
    omega

lemma countIndegree_eq (h : Forward nodes ds) (indegree : ℕ → ℕ) :
    countIndegree nodes ds indegree
      = .ok fun i => indegree i + ds.countP fun d => decide (d.after = i + 1) := by
  induction ds generalizing indegree with
  | nil => rfl
  | cons d ds ih =>
    obtain ⟨h1, hlt, hle⟩ := h.forward d (by simp)
    rw [countIndegree, h.nodeIndex_eq h1 (by omega), h.nodeIndex_eq (by omega) hle]
    simp only
    rw [if_neg (by omega), ih h.tail, Except.ok.injEq]
    funext i
    rw [countP_cons, update_apply]
    by_cases hi : i = d.after - 1
    · rw [if_pos hi, if_pos (by simp; omega), ← hi]
      omega
    · rw [if_neg hi, if_neg (by simp; omega)]
      omega

lemma release_eq (h : Forward nodes ds) (indegree : ℕ → ℕ) (i : ℕ) : release nodes k ds indegree i
    = indegree i - ds.countP fun d => decide (d.before = k + 1 ∧ d.after = i + 1) := by
  induction ds generalizing indegree with
  | nil => rfl
  | cons d ds ih =>
    obtain ⟨h1, hlt, hle⟩ := h.forward d (by simp)
    rw [release, h.nodeIndex_eq h1 (by omega), h.nodeIndex_eq (by omega) hle, countP_cons]
    simp only
    by_cases hk : d.before = k + 1
    · rw [if_pos (by rw [hk]; rfl), ih h.tail, update_apply]
      by_cases hi : i = d.after - 1
      · rw [if_pos hi, if_pos (by simp [hk]; omega), ← hi]
        omega
      · rw [if_neg hi, if_neg (by simp [hk]; omega)]
        omega
    · rw [if_neg (by simp; omega), ih h.tail, if_neg (by simp [hk])]
      omega

def pendingAt (ds : List BioDependency) (k i : ℕ) : ℕ :=
  ds.countP fun d => decide (k < d.before ∧ d.after = i + 1)

lemma pendingAt_succ (ds : List BioDependency) (k i : ℕ) : pendingAt ds k i
    - ds.countP (fun d => decide (d.before = k + 1 ∧ d.after = i + 1)) =
      pendingAt ds (k + 1) i := by
  have hsplit : pendingAt ds k i = pendingAt ds (k + 1) i
      + ds.countP fun d => decide (d.before = k + 1 ∧ d.after = i + 1) := by
    induction ds with
    | nil => rfl
    | cons d ds ih =>
      simp only [pendingAt, countP_cons, decide_eq_true_eq] at ih ⊢
      rw [ih]
      split_ifs <;> omega
  omega

lemma visit_eq (h : Forward nodes ds) (fuel visited : ℕ) (hk : k + fuel = nodes.length) :
    visit nodes ds fuel (fun i => decide (k ≤ i)) (pendingAt ds k) visited = visited + fuel := by
  induction fuel generalizing k visited with
  | zero => rfl
  | succ fuel ih =>
    have hzero : pendingAt ds k k = 0 := by
      rw [pendingAt, countP_eq_zero]
      intro d hd
      have := h.forward d hd
      simp
      omega
    have hfind : (range nodes.length).find?
        (fun i => decide (k ≤ i) && pendingAt ds k i == 0) = some k := by
      rw [find?_range_eq_some]
      refine ⟨by simp [hzero], by simp; omega, ?_⟩
      intro j hj
      simp
      omega
    have hremaining : update (fun i => decide (k ≤ i)) k false = fun i => decide (k + 1 ≤ i) := by
      funext i
      rw [update_apply]
      split_ifs with hi
      · simp [hi]
      simp
      omega
    have hpending : release nodes k ds (pendingAt ds k) = pendingAt ds (k + 1) := by
      funext i
      rw [release_eq h, pendingAt_succ]
    rw [visit, hfind]
    simp only
    rw [hremaining, hpending, ih (visited + 1) (by omega)]
    omega

theorem new_of_forward (h : Forward nodes ds) : new nodes ds = .ok ⟨nodes, ds⟩ := by
  have hdup : hasDuplicate nodes = false :=
    hasDuplicate_of_ids (k := 1) fun i n hn => (h.ids i n hn).trans (Nat.add_comm _ _)
  have hzero : (fun i => 0 + ds.countP fun d => decide (d.after = i + 1)) = pendingAt ds 0 := by
    funext i
    rw [pendingAt, Nat.zero_add]
    refine countP_congr fun d hd => ?_
    have := h.forward d hd
    simp
    omega
  have hvisit := visit_eq (k := 0) h nodes.length 0 (by omega)
  simp only [Nat.zero_le, decide_true, Nat.zero_add] at hvisit
  rw [new, hdup, if_neg (by simp), countIndegree_eq h, ok_bind, hzero, if_neg (by simp [hvisit])]
  rfl

end BioGraph

end TxKernel.Ext4
