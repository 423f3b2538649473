import Mathlib.Data.List.Nodup
import Mathlib.Data.List.Perm.Basic
import Mathlib.Data.Nat.Basic
import Mathlib.Tactic.Tauto
import TxKernel.Block.Submission
import TxKernel.Library.Runs

/-!
Completion routes, over every interleaving of page requests with one submission manager. The
requests held back for an action are a set: one that two actions share is let go when the first of
them is recorded.
-/

namespace TxKernel.Block

open List BlockSubmissionState BlockPageRequestTracker BlockQueue BlockService Function

/-! ### What the queue keeps of its ids -/

def BlockQueue.ids (q : BlockQueue) : List ℕ := q.pending.map (·.id)

def BlockTagTable.ids (t : BlockTagTable) : List ℕ := t.inFlight.map (·.bio.id)

/-- Ids that were handed out: the new ones come after all earlier ones. -/
structure Issued (q q' : BlockQueue) : Prop where
  ids : ∃ new, q'.ids = q.ids ++ new ∧ new.Nodup ∧ ∀ i ∈ new, q.nextId ≤ i ∧ i < q'.nextId
  nextId : q.nextId ≤ q'.nextId
  dispatchBlocked : ∀ i ∈ q.dispatchBlocked, i ∈ q'.dispatchBlocked

lemma Issued.refl (q : BlockQueue) : Issued q q :=
  ⟨⟨[], by simp⟩, le_rfl, fun _ h => h⟩

lemma Issued.mem {q q' : BlockQueue} (h : Issued q q') {i : ℕ} (hi : i ∈ q.ids) : i ∈ q'.ids := by
  obtain ⟨new, hnew, -⟩ := h.ids
  simp [hnew, hi]

lemma Issued.trans {q q' q'' : BlockQueue} (h : Issued q q') (h' : Issued q' q'') :
    Issued q q'' := by
  obtain ⟨new, hids, hnodup, hnew⟩ := h.ids
  obtain ⟨new', hids', hnodup', hnew'⟩ := h'.ids
  refine ⟨⟨new ++ new', by rw [hids', hids, append_assoc], ?_, ?_⟩, Nat.le_trans h.nextId h'.nextId,
    fun i hi => h'.dispatchBlocked i (h.dispatchBlocked i hi)⟩
  · refine nodup_append.mpr ⟨hnodup, hnodup', ?_⟩
    intro i hi j hj
    have := (hnew i hi).2
    have := (hnew' j hj).1
    omega
  · intro i hi
    rcases mem_append.mp hi with hi | hi
    · exact ⟨(hnew i hi).1, Nat.lt_of_lt_of_le (hnew i hi).2 h'.nextId⟩
    · exact ⟨Nat.le_trans h.nextId (hnew' i hi).1, (hnew' i hi).2⟩

lemma Accepts.issued {q q' : BlockQueue} {plan : BioPlan} {place : Place} {o : SubmitOutcome}
    (h : Accepts q plan place q' o) (hid : q.nextId + 1 < u64Limit) :
    Issued q q' ∧ o.id ∈ q'.ids ∧ q'.nextId ≤ q.nextId + 1 := by
  cases h with
  | back hpending hmerged | front hpending hmerged =>
    refine ⟨⟨⟨[], by simp [ids, hpending]⟩, le_rfl, fun _ h => h⟩, ?_, Nat.le_succ _⟩
    simp [ids, SubmitOutcome.id]
  | new =>
    have hnext : nextCounter q.nextId = q.nextId + 1 := by
      rw [nextCounter, Nat.mod_eq_of_lt hid]
      omega
    refine ⟨⟨⟨[q.nextId], by simp [ids, hnext]⟩, by simp [hnext], fun _ h => h⟩, ?_,
      by simp [hnext]⟩
    simp [ids, SubmitOutcome.id]

lemma issued_blockDispatch (q : BlockQueue) (id : ℕ) : Issued q (q.blockDispatch id) :=
  ⟨⟨[], by simp [ids, blockDispatch]⟩, le_rfl,
    fun _ h => mem_insert_of_mem h⟩

/-- Every request that takes a plan of an action is pending and held. -/
lemma submitEach_spec (q : BlockQueue) (index : ℕ) (plans : List BioPlan)
    (hid : q.nextId + plans.length < u64Limit) :
    Issued q (submitEach q index plans).1 ∧
      ∀ o ∈ (submitEach q index plans).2.1,
        o.id ∈ (submitEach q index plans).1.ids ∧
          o.id ∈ (submitEach q index plans).1.dispatchBlocked := by
  induction plans generalizing q index with
  | nil => exact ⟨Issued.refl q, by simp [submitEach]⟩
  | cons plan plans ih =>
    rw [length_cons] at hid
    rcases q.submit_cases plan with ⟨e, he⟩ | ⟨q', o, ho, haccepts⟩
    · simp only [submitEach, he]
      exact ⟨Issued.refl q, by simp⟩
    obtain ⟨hissued, hmem, hnext⟩ := haccepts.issued (by omega)
    have hheld : o.id ∈ (q'.blockDispatch o.id).dispatchBlocked := mem_insert_self
    obtain ⟨hrest, hothers⟩ := ih (q'.blockDispatch o.id) (index + 1)
      (by simp only [blockDispatch]; omega)
    simp only [submitEach, ho]
    have hblock := issued_blockDispatch q' o.id
    refine ⟨hissued.trans (hblock.trans hrest), ?_⟩
    intro o' ho'
    rcases mem_cons.mp ho' with rfl | ho'
    · exact ⟨hrest.mem (hblock.mem hmem), hrest.dispatchBlocked _ hheld⟩
    · exact hothers o' ho'

/-- The request at the back or at the front of a queue that a plan adjoins. -/
def Joins (pending : List Bio) (plan : BioPlan) (b : Bio) : Prop :=
  pending.getLast? = some b ∧ (b.plan.mergeAdjacent plan).isSome = true ∨
    pending.head? = some b ∧ (b.plan.prependAdjacent plan).isSome = true

lemma Accepts.apart {q q' : BlockQueue} {plan : BioPlan} {place : Place} {o : SubmitOutcome}
    {held : ℕ → Prop} (h : Accepts q plan place q' o) (hnext : ¬ held q.nextId)
    (hfree : ∀ b, Joins q.pending plan b → ¬ held b.id) :
    ¬ held o.id ∧ ∀ plan' b, Joins q'.pending plan' b → held b.id → Joins q.pending plan' b := by
  cases h with
  | @back init b merged hpending hmerged =>
    have hb := hfree b (.inl ⟨by simp [hpending], by simp [hmerged]⟩)
    refine ⟨hb, fun plan' b' hb' hheld => ?_⟩
    rcases hb' with ⟨hlast, -⟩ | ⟨hhead, hadj⟩
    · obtain rfl : _ = b' := by simpa using hlast
      exact absurd hheld hb
    rcases init with _ | ⟨x, init⟩
    · obtain rfl : _ = b' := by simpa using hhead
      exact absurd hheld hb
    · exact .inr ⟨by simpa [hpending] using hhead, hadj⟩
  | @front b rest merged hpending hmerged =>
    have hb := hfree b (.inr ⟨by simp [hpending], by simp [hmerged]⟩)
    refine ⟨hb, fun plan' b' hb' hheld => ?_⟩
    rcases hb' with ⟨hlast, hadj⟩ | ⟨hhead, -⟩
    · rcases eq_nil_or_concat' rest with rfl | ⟨init, x, rfl⟩
      · obtain rfl : _ = b' := by simpa using hlast
        exact absurd hheld hb
      · exact .inl ⟨by simpa [hpending, getLast?_cons] using hlast, hadj⟩
    · obtain rfl : _ = b' := by simpa using hhead
      exact absurd hheld hb
  | new =>
    refine ⟨hnext, fun plan' b' hb' hheld => ?_⟩
    rcases hb' with ⟨hlast, -⟩ | ⟨hhead, hadj⟩
    · obtain rfl : _ = b' := by simpa using hlast
      exact absurd hheld hnext
    rcases hpending : q.pending with _ | ⟨x, rest⟩
    · obtain rfl : _ = b' := by simpa [hpending] using hhead
      exact absurd hheld hnext
    · exact .inr ⟨by simpa [hpending] using hhead, hadj⟩

lemma submitEach_apart (held : ℕ → Prop) (q : BlockQueue) (index : ℕ) (plans : List BioPlan)
    (hid : q.nextId + plans.length < u64Limit) (hlt : ∀ i, held i → i < q.nextId)
    (hjoins : ∀ plan ∈ plans, ∀ b, Joins q.pending plan b → ¬ held b.id) :
    ∀ o ∈ (submitEach q index plans).2.1, ¬ held o.id := by
  induction plans generalizing q index with
  | nil => simp [submitEach]
  | cons plan plans ih =>
    rw [length_cons] at hid
    rcases q.submit_cases plan with ⟨e, he⟩ | ⟨q', o, ho, haccepts⟩
    · simp [submitEach, he]
    obtain ⟨hissued, -, hnext⟩ := haccepts.issued (by omega)
    obtain ⟨hplan, hplans⟩ := forall_mem_cons.mp hjoins
    obtain ⟨hfree, hends⟩ := haccepts.apart (fun h => lt_irrefl _ (hlt _ h)) hplan
    simp only [submitEach, ho]
    rintro o' ho'
    rcases mem_cons.mp ho' with rfl | ho'
    · exact hfree
    · exact ih (q'.blockDispatch o.id) (index + 1) (by simp only [blockDispatch]; omega)
        (fun i hi => Nat.lt_of_lt_of_le (hlt i hi) hissued.nextId)
        (fun plan' hplan' b hb hheld =>
          hplans plan' hplan' b (hends plan' b hb hheld) hheld) o' ho'

/-! ### What recording and completing do -/

lemma unblock_spec (q : BlockQueue) (outcomes : List SubmitOutcome) :
    (outcomes.foldl (fun q o => q.unblockDispatch o.id) q).pending = q.pending ∧
      (outcomes.foldl (fun q o => q.unblockDispatch o.id) q).nextId = q.nextId ∧
      ∀ i, i ∈ (outcomes.foldl (fun q o => q.unblockDispatch o.id) q).dispatchBlocked ↔
        i ∈ q.dispatchBlocked ∧ ∀ o ∈ outcomes, o.id ≠ i := by
  induction outcomes generalizing q with
  | nil => simp
  | cons o outcomes ih =>
    obtain ⟨hpending, hnext, hblocked⟩ := ih (q.unblockDispatch o.id)
    refine ⟨hpending, hnext, fun i => ?_⟩
    rw [foldl_cons, hblocked]
    simp only [unblockDispatch, mem_filter, bne_iff_ne, forall_mem_cons]
    tauto

namespace BlockPageRequestTracker

lemma routes_record (t : BlockPageRequestTracker) (request : PageIoRequest) (o : SubmitOutcome)
    (i : ℕ) : (t.record request o).routes i =
      if i = o.id then t.routes i ++ [request] else t.routes i := by
  unfold record
  by_cases h : i = o.id
  · simp [routes, h]
  · simp [routes, h]

lemma mem_routes_recordSubmitOutcomes (t : BlockPageRequestTracker) (request req : PageIoRequest)
    (outcomes : List SubmitOutcome) (i : ℕ)
    (h : req ∈ t.routes i ∨ req = request ∧ ∃ o ∈ outcomes, o.id = i) :
    req ∈ (t.recordSubmitOutcomes request outcomes).routes i := by
  induction outcomes generalizing t with
  | nil => simpa [recordSubmitOutcomes] using h
  | cons o outcomes ih =>
    refine ih (t.record request o) ?_
    rw [routes_record]
    rcases h with h | ⟨rfl, o', ho', rfl⟩
    · left
      split_ifs
      · exact mem_append_left _ h
      · exact h
    · rcases mem_cons.mp ho' with rfl | ho'
      · left
        simp
      · exact .inr ⟨rfl, o', ho', rfl⟩

end BlockPageRequestTracker

lemma perm_swapRemove {α : Type*} {l : List α} {i : ℕ} {a : α} (h : l[i]? = some a) :
    l.Perm (a :: swapRemove l i) := by
  obtain ⟨hi, rfl⟩ := List.getElem?_eq_some_iff.mp h
  rcases List.eq_nil_or_concat' l with rfl | ⟨init, last, rfl⟩
  · simp at hi
  by_cases hlast : i = init.length
  · subst hlast
    simp [swapRemove]
  have hlt : i < init.length := by simp at hi; omega
  have hset : (init.set i last).Perm (last :: init.eraseIdx i) := set_perm_cons_eraseIdx hlt _
  have herase : (init[i] :: init.eraseIdx i).Perm init := getElem_cons_eraseIdx_perm hlt
  simp only [swapRemove, getLast?_append, getLast?_singleton, Option.some_or,
    set_append_left _ _ hlt, dropLast_concat, getElem_append_left hlt]
  calc (init ++ [last]).Perm (last :: init) := perm_append_singleton last init
    _ |>.Perm (last :: init[i] :: init.eraseIdx i) := (herase.cons last).symm
    _ |>.Perm (init[i] :: last :: init.eraseIdx i) := .swap _ _ _
    _ |>.Perm (init[i] :: init.set i last) := (hset.cons _).symm

lemma complete_ok {t t' : BlockTagTable} {depth depth' : QueueDepth} {tag : ℕ}
    {result : Except Errno Unit} {block : BlockCompletion}
    (h : t.complete depth tag result = .ok (block, depth', t')) :
    t.ids.Perm (block.id :: t'.ids) := by
  unfold BlockTagTable.complete at h
  split at h
  · cases h
  split at h
  · rename_i d hd
    obtain ⟨rfl, rfl, rfl⟩ : _ ∧ _ ∧ _ := by simpa using h
    exact (perm_swapRemove hd).map _
  · cases h

structure Completes (m m' : BlockSubmissionState) (receipt : BlockManagerCompletionReceipt) :
    Prop where
  queue : m'.service.queue = m.service.queue
  inFlight : m.service.tags.ids.Perm (receipt.block.id :: m'.service.tags.ids)
  page : receipt.page = m.tracker.routes receipt.block.id
  others : ∀ i, i ≠ receipt.block.id → m'.tracker.routes i = m.tracker.routes i

lemma completeReceipt_cases (m : BlockSubmissionState) (tag : ℕ) (result : Except Errno Unit) :
    (∃ e, m.completeReceipt tag result = (m, .error e)) ∨
      ∃ m' receipt, m.completeReceipt tag result = (m', .ok receipt) ∧ Completes m m' receipt := by
  unfold completeReceipt
  rcases hc : m.service.tags.complete m.service.depth tag result with e | ⟨block, depth, tags⟩
  · exact .inl ⟨e, rfl⟩
  rcases ht : m.tracker.pending block.id with _ | requests
  · have hnone : m.tracker.complete block.id = none := by
      simp [complete, ht]
    simp only [hnone]
    refine .inr ⟨_, _, rfl, rfl, complete_ok hc, ?_, fun i _ => rfl⟩
    simp [routes, ht]
  have hsome : m.tracker.complete block.id =
      some (requests, ⟨update m.tracker.pending block.id none⟩) := by
    simp [complete, ht]
  simp only [hsome]
  refine .inr ⟨_, _, rfl, rfl, complete_ok hc, ?_, fun i hi => ?_⟩
  · simp [routes, ht]
  · simp [routes, hi]

/-! ### Page requests and the manager -/

/-- A page action between its two steps. -/
structure OpenAction where
  request : PageIoRequest
  kind : PageL6ActionKind
  receipt : PageL6Receipt

def OpenAction.ids (a : OpenAction) : List ℕ := a.receipt.submitted.map SubmitOutcome.id

inductive ManagerCall
  | submitPageAction (request : PageIoRequest) (action : PageL6Action)
  | recordPageOutcome (index : ℕ)
  | submitDirect (lease : ℕ) (plan : BioPlan)
  | drive (budget : ℕ)
  | completeReceipt (tag : ℕ) (result : Except Errno Unit)

inductive ManagerAnswer
  | receipt (r : PageL6Receipt)
  | recorded
  | direct (r : Except QueueError SubmitOutcome)
  | driven (step : BlockServiceStep)
  | completed (r : Except BlockCompletionError BlockManagerCompletionReceipt)

/-- The manager, the actions that are not recorded, and for each block request that is not completed
the page requests whose data it carries. -/
structure Tracked where
  manager : BlockSubmissionState
  unrecorded : List OpenAction
  carried : List (ℕ × PageIoRequest)

namespace Tracked

def new (maxPending queueDepth : ℕ) : Tracked := ⟨.new maxPending queueDepth, [], []⟩

/-- The page requests that wait for their data, by the block requests that carry it. Continuations
are kept by the page service itself. -/
def carriedBy (request : PageIoRequest) (kind : PageL6ActionKind) (submitted : List SubmitOutcome) :
    List (ℕ × PageIoRequest) :=
  if kind = .pageBios then submitted.map fun o => (o.id, request) else []

def step (s : Tracked) : ManagerCall → Tracked × ManagerAnswer
  | .submitPageAction request action =>
    let (manager, receipt) := s.manager.submitPageAction action
    (⟨manager, s.unrecorded ++ [⟨request, action.kind, receipt⟩],
      s.carried ++ carriedBy request action.kind receipt.submitted⟩, .receipt receipt)
  | .recordPageOutcome index =>
    match s.unrecorded[index]? with
    | none => (s, .recorded)
    | some a =>
      (⟨s.manager.recordPageOutcome (applyL6Receipt a.kind a.request a.receipt),
        s.unrecorded.eraseIdx index, s.carried⟩, .recorded)
  | .submitDirect lease plan =>
    let (manager, answer) := s.manager.submitDirect lease plan
    ({ s with manager }, .direct answer)
  | .drive budget =>
    let (manager, step) := s.manager.drive budget
    ({ s with manager }, .driven step)
  | .completeReceipt tag result =>
    match s.manager.completeReceipt tag result with
    | (manager, .ok receipt) =>
      ({ s with manager, carried := s.carried.filter fun p => p.1 != receipt.block.id },
        .completed (.ok receipt))
    | (manager, .error e) => ({ s with manager }, .completed (.error e))

/-- No request is dispatched that carries a plan of an action that is not recorded. -/
def Timely (s : Tracked) (c : ManagerCall) : Prop :=
  ∀ turn, (s.step c).2 = .driven turn → ∀ d ∈ turn.dispatches, ∀ a ∈ s.unrecorded, d.bio.id ∉ a.ids

/-- A completion returns every page request whose data the block request carried. -/
def Routed (s : Tracked) (c : ManagerCall) : Prop :=
  ∀ receipt, (s.step c).2 = .completed (.ok receipt) →
    ∀ request, (receipt.block.id, request) ∈ s.carried → request ∈ receipt.page

/-- The counter of the ids does not wrap. -/
def Counts (s : Tracked) (plans : ℕ) : Prop := s.manager.service.queue.nextId + plans < u64Limit

/-- No plan of a page action adjoins a request at an end of the queue that carries a plan of another
action that is not recorded, and ids do not run out. -/
def Separate (s : Tracked) : ManagerCall → Prop
  | .submitPageAction _ action =>
    s.Counts action.bios.length ∧ ∀ plan ∈ action.bios, ∀ b,
      Joins s.manager.service.queue.pending plan b → ∀ a ∈ s.unrecorded, b.id ∉ a.ids
  | .submitDirect _ _ => s.Counts 1
  | _ => True

/-! ### The invariant -/

/-- Requests have distinct ids; actions that are not recorded hold pending requests of their own;
and the page requests behind all other data have their routes. -/
structure Settled (s : Tracked) : Prop where
  nodup : (s.manager.service.queue.ids ++ s.manager.service.tags.ids).Nodup
  below : ∀ i ∈ s.manager.service.queue.ids ++ s.manager.service.tags.ids,
    i < s.manager.service.queue.nextId
  held : ∀ a ∈ s.unrecorded, ∀ i ∈ a.ids,
    i ∈ s.manager.service.queue.ids ∧ i ∈ s.manager.service.queue.dispatchBlocked
  apart : s.unrecorded.Pairwise fun a b => ∀ i ∈ a.ids, i ∉ b.ids
  routed : ∀ p ∈ s.carried, p.2 ∈ s.manager.tracker.routes p.1 ∨
    ∃ a ∈ s.unrecorded, a.kind = .pageBios ∧ a.request = p.2 ∧ p.1 ∈ a.ids

variable {s : Tracked}

lemma settled_new (maxPending queueDepth : ℕ) : Settled (new maxPending queueDepth) := by
  constructor <;>
    simp [new, BlockSubmissionState.new, BlockService.new, BlockQueue.new, BlockTagTable.new,
      ids, BlockTagTable.ids]

lemma Settled.timely (h : Settled s) (c : ManagerCall) : Timely s c := by
  intro turn hturn d hd a ha hia
  cases c with
  | submitPageAction request action => cases hturn
  | recordPageOutcome index =>
    simp only [step] at hturn
    split at hturn <;> cases hturn
  | submitDirect lease plan => cases hturn
  | drive budget =>
    obtain rfl := ManagerAnswer.driven.inj hturn
    have hfree := (dispatched_dispatchWithin budget s.manager.service).took.free d.bio
      (mem_map_of_mem hd)
    exact hfree (h.held a ha _ hia).2
  | completeReceipt tag result =>
    simp only [step] at hturn
    split at hturn <;> cases hturn

lemma Settled.routed_completion (h : Settled s) (c : ManagerCall) : Routed s c := by
  intro receipt hreceipt request hrequest
  cases c with
  | submitPageAction request action => cases hreceipt
  | recordPageOutcome index =>
    simp only [step] at hreceipt
    split at hreceipt <;> cases hreceipt
  | submitDirect lease plan => cases hreceipt
  | drive budget => cases hreceipt
  | completeReceipt tag result =>
    rcases completeReceipt_cases s.manager tag result with ⟨e, he⟩ | ⟨m', r, hr, hcompletes⟩
    · simp [step, he] at hreceipt
    obtain rfl : r = receipt := by simpa [step, hr] using hreceipt
    rcases h.routed _ hrequest with hroute | ⟨a, ha, -, -, hia⟩
    · rwa [hcompletes.page]
    -- the request was in flight, so no action holds it any more
    have hflight := hcompletes.inFlight.mem_iff.mpr mem_cons_self
    exact absurd rfl ((nodup_append.mp h.nodup).2.2 _ (h.held a ha _ hia).1 _ hflight)

lemma Settled.issue (h : Settled s) {queue : BlockQueue}
    (hissued : Issued s.manager.service.queue queue) :
    (queue.ids ++ s.manager.service.tags.ids).Nodup ∧
      ∀ i ∈ queue.ids ++ s.manager.service.tags.ids, i < queue.nextId := by
  obtain ⟨new, hids, hnodup, hnew⟩ := hissued.ids
  have hold : ∀ i ∈ s.manager.service.queue.ids ++ s.manager.service.tags.ids, i ∉ new := by
    intro i hi hin
    have := h.below i hi
    have := (hnew i hin).1
    omega
  have hperm : (queue.ids ++ s.manager.service.tags.ids).Perm
      (s.manager.service.queue.ids ++ s.manager.service.tags.ids ++ new) := by
    rw [hids, append_assoc, append_assoc]
    exact perm_append_comm.append_left _
  constructor
  · rw [hperm.nodup_iff, nodup_append]
    refine ⟨h.nodup, hnodup, ?_⟩
    rintro i hi j hj rfl
    exact hold i hi hj
  · intro i hi
    rcases mem_append.mp (hperm.mem_iff.mp hi) with hi | hi
    · exact Nat.lt_of_lt_of_le (h.below i hi) hissued.nextId
    · exact (hnew i hi).2

lemma Settled.submitPageAction (h : Settled s) {request : PageIoRequest} {action : PageL6Action}
    (hsep : Separate s (.submitPageAction request action)) :
    Settled (s.step (.submitPageAction request action)).1 := by
  obtain ⟨hcounts, hjoins⟩ := hsep
  have hshare := submitEach_apart (fun i => ∃ a ∈ s.unrecorded, i ∈ a.ids)
    s.manager.service.queue 0 action.bios hcounts
    (fun i ⟨a, ha, hi⟩ => h.below i (mem_append_left _ (h.held a ha i hi).1))
    (fun plan hplan b hb ⟨a, ha, hi⟩ => hjoins plan hplan b hb a ha hi)
  obtain ⟨hissued, hheld⟩ := submitEach_spec s.manager.service.queue 0 action.bios hcounts
  obtain ⟨hnodup, hbelow⟩ := h.issue hissued
  refine ⟨hnodup, hbelow, ?_, ?_, ?_⟩
  · intro a ha i hi
    rcases mem_append.mp ha with ha | ha
    · obtain ⟨hmem, hblocked⟩ := h.held a ha i hi
      exact ⟨hissued.mem hmem, hissued.dispatchBlocked i hblocked⟩
    rw [mem_singleton.mp ha] at hi
    obtain ⟨o, ho, rfl⟩ := mem_map.mp hi
    exact hheld o ho
  · refine pairwise_append.mpr ⟨h.apart, pairwise_singleton _ _, ?_⟩
    intro a ha b hb i hia hib
    rw [mem_singleton.mp hb] at hib
    obtain ⟨o, ho, rfl⟩ := mem_map.mp hib
    exact hshare o ho ⟨a, ha, hia⟩
  intro p hp
  rcases mem_append.mp hp with hp | hp
  · rcases h.routed p hp with hroute | ⟨a, ha, hrest⟩
    · exact .inl hroute
    · exact .inr ⟨a, mem_append_left _ ha, hrest⟩
  right
  refine ⟨_, mem_append_right _ mem_cons_self, ?_⟩
  unfold carriedBy at hp
  split_ifs at hp with hkind
  · obtain ⟨o, ho, rfl⟩ := mem_map.mp hp
    exact ⟨hkind, rfl, mem_map_of_mem ho⟩
  · simp at hp

lemma outcomes_applyL6Receipt (kind : PageL6ActionKind) (request : PageIoRequest)
    (receipt : PageL6Receipt) :
    pageActionSubmitOutcomes (applyL6Receipt kind request receipt) = receipt.submitted := by
  unfold applyL6Receipt
  split
  · simp [*, pageActionSubmitOutcomes]
  · cases kind <;> rfl

lemma routes_recordPageOutcome (m : BlockSubmissionState) (a : OpenAction) (i : ℕ)
    (req : PageIoRequest)
    (h : req ∈ m.tracker.routes i ∨ a.kind = .pageBios ∧ a.request = req ∧ i ∈ a.ids) :
    req ∈ (m.recordPageOutcome (applyL6Receipt a.kind a.request a.receipt)).tracker.routes i := by
  obtain ⟨request, kind, ⟨id, submitted, failure⟩⟩ := a
  rcases submitted with _ | ⟨o, submitted⟩
  · simp only [OpenAction.ids, map_nil, not_mem_nil, and_false, or_false] at h
    rcases failure with _ | failure <;> cases kind <;> simpa [applyL6Receipt,
      recordPageOutcome, recordSubmitOutcomes] using h
  cases kind with
  | pageBios =>
    have : applyL6Receipt .pageBios request ⟨id, o :: submitted, failure⟩ =
        .blockBiosQueued request (o :: submitted) := by
      rcases failure with _ | failure <;> rfl
    simp only [this, recordPageOutcome]
    refine mem_routes_recordSubmitOutcomes _ _ _ _ _ ?_
    rcases h with h | ⟨-, rfl, hi⟩
    · exact .inl h
    obtain ⟨o', ho', rfl⟩ := mem_map.mp hi
    exact .inr ⟨rfl, o', ho', rfl⟩
  | metadataFirst | graphReady => rcases failure with _ | failure <;> simpa [applyL6Receipt,
      recordPageOutcome] using h

section

variable (h : Settled s)

include h

lemma Settled.recordPageOutcome (index : ℕ) : Settled (s.step (.recordPageOutcome index)).1 := by
  rcases hopen : s.unrecorded[index]? with _ | a
  · simpa [step, hopen] using h
  obtain ⟨hlt, rfl⟩ := List.getElem?_eq_some_iff.mp hopen
  obtain ⟨hpending, hnext, hblocked⟩ :=
    unblock_spec s.manager.service.queue s.unrecorded[index].receipt.submitted
  have hids : ∀ m : BlockQueue, m.pending = s.manager.service.queue.pending →
      m.ids = s.manager.service.queue.ids := fun m hm => by simp [ids, hm]
  -- the actions that stay share no request with the one that is recorded
  have hperm := getElem_cons_eraseIdx_perm hlt
  have hapart := hperm.symm.pairwise h.apart (fun {a b} hab i hi hia => hab i hia hi)
  obtain ⟨hfirst, hothers⟩ := pairwise_cons.mp hapart
  simp only [step, hopen]
  refine ⟨?_, ?_, ?_, hothers, ?_⟩
  · simpa [BlockSubmissionState.recordPageOutcome, outcomes_applyL6Receipt, hids _ hpending]
      using h.nodup
  · simpa [BlockSubmissionState.recordPageOutcome, outcomes_applyL6Receipt, hids _ hpending, hnext]
      using h.below
  · intro b hb i hi
    obtain ⟨hmem, hheld⟩ := h.held b (mem_of_mem_eraseIdx hb) i hi
    simp only [BlockSubmissionState.recordPageOutcome, outcomes_applyL6Receipt, hids _ hpending]
    refine ⟨hmem, (hblocked i).mpr ⟨hheld, ?_⟩⟩
    rintro o ho rfl
    exact hfirst b hb o.id (mem_map_of_mem ho) hi
  · intro p hp
    rcases h.routed p hp with hroute | ⟨b, hb, hrest⟩
    · exact .inl (routes_recordPageOutcome s.manager _ p.1 p.2 (.inl hroute))
    rcases mem_cons.mp (hperm.mem_iff.mpr hb) with rfl | hb
    · exact .inl (routes_recordPageOutcome s.manager _ p.1 p.2 (.inr hrest))
    · exact .inr ⟨b, hb, hrest⟩

lemma Settled.submitDirect {lease : ℕ} {plan : BioPlan}
    (hsep : Separate s (.submitDirect lease plan)) :
    Settled (s.step (.submitDirect lease plan)).1 := by
  rcases s.manager.service.queue.submit_cases plan with ⟨e, he⟩ | ⟨queue, o, ho, haccepts⟩
  · simpa [step, BlockSubmissionState.submitDirect, he] using h
  obtain ⟨hissued, -, -⟩ := haccepts.issued hsep
  obtain ⟨hnodup, hbelow⟩ := h.issue hissued
  simp only [step, BlockSubmissionState.submitDirect, ho]
  refine ⟨hnodup, hbelow, ?_, h.apart, h.routed⟩
  intro a ha i hi
  obtain ⟨hmem, hheld⟩ := h.held a ha i hi
  exact ⟨hissued.mem hmem, hissued.dispatchBlocked i hheld⟩

lemma Settled.drive (budget : ℕ) : Settled (s.step (.drive budget)).1 := by
  obtain ⟨htook, hflight⟩ := dispatched_dispatchWithin budget s.manager.service
  have hperm : ((dispatchWithin budget s.manager.service).1.queue.ids ++
      (dispatchWithin budget s.manager.service).1.tags.ids).Perm
      (s.manager.service.queue.ids ++ s.manager.service.tags.ids) := by
    simp only [ids, BlockTagTable.ids, htook.pending, hflight, map_append, map_map, comp_def]
    rw [← append_assoc, append_assoc _ _ (s.manager.service.tags.inFlight.map _)]
    exact perm_append_comm
  refine ⟨hperm.nodup_iff.mpr h.nodup, ?_, ?_, h.apart, h.routed⟩
  · intro i hi
    have := h.below i (hperm.mem_iff.mp hi)
    exact htook.nextId ▸ this
  intro a ha i hi
  obtain ⟨hmem, hheld⟩ := h.held a ha i hi
  refine ⟨?_, htook.dispatchBlocked ▸ hheld⟩
  simp only [ids, htook.pending, map_append, mem_append] at hmem
  rcases hmem with hmem | hmem
  · obtain ⟨b, hb, rfl⟩ := mem_map.mp hmem
    exact absurd hheld (htook.free b hb)
  · exact hmem

lemma Settled.completeReceipt (tag : ℕ) (result : Except Errno Unit) :
    Settled (s.step (.completeReceipt tag result)).1 := by
  rcases completeReceipt_cases s.manager tag result with ⟨e, he⟩ | ⟨m', r, hr, hcompletes⟩
  · simpa [step, he] using h
  obtain ⟨hqueue, hflight, -, hroutes⟩ := hcompletes
  have hperm : (s.manager.service.queue.ids ++ s.manager.service.tags.ids).Perm
      (r.block.id :: (m'.service.queue.ids ++ m'.service.tags.ids)) := by
    rw [hqueue]
    exact (hflight.append_left _).trans perm_middle
  simp only [step, hr]
  refine ⟨(nodup_cons.mp (hperm.nodup_iff.mp h.nodup)).2, fun i hi => ?_, fun a ha i hi => ?_,
    h.apart, fun p hp => ?_⟩
  · have := h.below i (hperm.mem_iff.mpr (mem_cons_of_mem _ hi))
    exact hqueue ▸ this
  · exact hqueue ▸ h.held a ha i hi
  obtain ⟨hp, hne⟩ := mem_filter.mp hp
  rcases h.routed p hp with hroute | hopen
  · left
    rwa [hroutes p.1 (by simpa using hne)]
  · exact .inr hopen

lemma Settled.step (c : ManagerCall) (hc : Separate s c) : Settled (s.step c).1 := by
  cases c with
  | submitPageAction request action => exact h.submitPageAction hc
  | recordPageOutcome index => exact h.recordPageOutcome index
  | submitDirect lease plan => exact h.submitDirect hc
  | drive budget => exact h.drive budget
  | completeReceipt tag result => exact h.completeReceipt tag result

end

/-- **Routes before dispatch**: in every interleaving in which no page action adjoins a request of
another one that is not recorded, no request is dispatched before the actions behind it are
recorded, and every completion returns the page requests behind its data. -/
theorem routes_precede_dispatch (maxPending queueDepth : ℕ) (calls : List ManagerCall)
    (c : ManagerCall)
    (hcalls : Runs.Allowed Tracked.step Separate (new maxPending queueDepth) calls) :
    Timely (Runs.runSpec Tracked.step (new maxPending queueDepth) calls).1 c ∧
      Routed (Runs.runSpec Tracked.step (new maxPending queueDepth) calls).1 c := by
  have hsettled : Settled (Runs.runSpec Tracked.step (new maxPending queueDepth) calls).1 :=
    Runs.invariant Settled (fun s c h hc => h.step c hc) calls (settled_new maxPending queueDepth)
      hcalls
  exact ⟨hsettled.timely c, hsettled.routed_completion c⟩

def firstWrite : PageL6Action := ⟨1, .pageBios, [⟨3, .write, ⟨10, 2⟩, [⟨1, 0, 1024⟩], .empty⟩]⟩

def adjacentWrite : PageL6Action := ⟨2, .pageBios, [⟨3, .write, ⟨12, 2⟩, [⟨2, 0, 1024⟩], .empty⟩]⟩

def recordedInTurn : List ManagerCall :=
  [.submitPageAction ⟨7⟩ firstWrite, .recordPageOutcome 0, .submitPageAction ⟨8⟩ adjacentWrite,
    .recordPageOutcome 0, .drive 1]

theorem routes_precede_dispatch_recordedInTurn :
    Runs.Allowed Tracked.step Separate (new 4 1) recordedInTurn ∧
      Timely (Runs.runSpec Tracked.step (new 4 1) recordedInTurn).1 (.completeReceipt 1 (.ok ())) ∧
      Routed (Runs.runSpec Tracked.step (new 4 1) recordedInTurn).1
        (.completeReceipt 1 (.ok ())) := by
  have hcalls : Runs.Allowed Tracked.step Separate (new 4 1) recordedInTurn := by
    refine ⟨⟨?_, ?_⟩, trivial, ⟨?_, ?_⟩, trivial, trivial, trivial⟩
    · unfold Counts
      decide
    · intro plan _ b _ a ha
      cases ha
    · unfold Counts
      decide
    · intro plan _ b _ a ha
      cases ha
  exact ⟨hcalls, routes_precede_dispatch 4 1 recordedInTurn _ hcalls⟩

def sharedRequest : List ManagerCall :=
  [.submitPageAction ⟨7⟩ firstWrite, .submitPageAction ⟨8⟩ adjacentWrite, .recordPageOutcome 0]

/-- The shared request is dispatched before the second action is recorded, and its completion
returns the first page request only. -/
theorem shared_request_dispatched_early :
    ¬ Timely (Runs.runSpec Tracked.step (new 4 1) sharedRequest).1 (.drive 1) ∧
      ¬ Routed (Runs.runSpec Tracked.step (new 4 1) (sharedRequest ++ [.drive 1])).1
        (.completeReceipt 1 (.ok ())) := by
  constructor
  · intro h
    have := h _ rfl
    revert this
    decide
  · intro h
    have := h _ rfl ⟨8⟩ (by decide)
    revert this
    decide

end Tracked

end TxKernel.Block
