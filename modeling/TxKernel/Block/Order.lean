import Mathlib.Data.List.Chain
import Mathlib.Algebra.Order.BigOperators.Group.List
import Mathlib.Tactic.Ring
import TxKernel.Block.Queue
import TxKernel.Library.Runs

/-!
The order of dispatch of the block queue, over every sequence of submissions and dispatches.
Requests leave as they stand in line, so a plan that joins the one at the front overtakes the rest.
-/

namespace TxKernel.Block

open List Option LbaRange

/-! ### Plans that must keep their order -/

namespace LbaRange

def Overlaps (r t : LbaRange) : Prop :=
  max r.startLba t.startLba < min (r.startLba + r.blockCount) (t.startLba + t.blockCount)

instance (r t : LbaRange) : Decidable (r.Overlaps t) := inferInstanceAs (Decidable (_ < _))

end LbaRange

/-- Two plans on one device touch a common block, and one of them writes it. -/
def BioPlan.Conflicts (p q : BioPlan) : Prop :=
  p.device = q.device ∧ p.lba.Overlaps q.lba ∧ (p.op = .write ∨ q.op = .write)

instance (p q : BioPlan) : Decidable (p.Conflicts q) := inferInstanceAs (Decidable (_ ∧ _ ∧ _))

/-- An accepted plan, numbered in the order of acceptance. -/
structure Submission where
  number : ℕ
  plan : BioPlan
  deriving DecidableEq

/-- The first of two submissions came first, and is a fence or conflicts with the other one. -/
def Submission.MustPrecede (x y : Submission) : Prop :=
  x.number < y.number ∧ (x.plan.requiresFence = true ∨ x.plan.Conflicts y.plan)

instance (x y : Submission) : Decidable (x.MustPrecede y) := inferInstanceAs (Decidable (_ ∧ _))

/-! ### Requests and the submissions they carry -/

/-- The submissions that one request carries, in the order of their blocks. -/
structure Request where
  first : Submission
  rest : List Submission
  deriving DecidableEq

/-- The second plan goes on where the first one ends, in the same way. -/
def Abuts (x y : Submission) : Prop :=
  x.plan.lba.startLba + x.plan.lba.blockCount = y.plan.lba.startLba ∧
    x.plan.device = y.plan.device ∧ x.plan.op = y.plan.op ∧ x.plan.flags = y.plan.flags

namespace Request

def items (r : Request) : List Submission := r.first :: r.rest

def single (x : Submission) : Request := ⟨x, []⟩

def append (r : Request) (x : Submission) : Request := ⟨r.first, r.rest ++ [x]⟩

def prepend (r : Request) (x : Submission) : Request := ⟨x, r.first :: r.rest⟩

def blocks (r : Request) : ℕ := (r.items.map fun x => x.plan.lba.blockCount).sum

def plan (r : Request) : BioPlan :=
  { r.first.plan with
    lba := ⟨r.first.plan.lba.startLba, r.blocks⟩
    vecs := r.items.flatMap fun x => x.plan.vecs }

/-- The submissions cover adjoining ranges, and a fence is carried alone. -/
structure Tiled (r : Request) : Prop where
  chain : r.items.IsChain Abuts
  fenceless : r.rest ≠ [] → ∀ x ∈ r.items, x.plan.requiresFence = false

@[simp] lemma items_single (x : Submission) : (single x).items = [x] := rfl

section

variable (r : Request) (x : Submission)

@[simp] lemma items_append : (r.append x).items = r.items ++ [x] :=
  rfl

@[simp] lemma items_prepend : (r.prepend x).items = x :: r.items :=
  rfl

end

variable {r : Request}

variable {xs : List Submission} {x y : Submission}

lemma mem_isChain (h : (x :: xs).IsChain Abuts) (hy : y ∈ x :: xs) :
    x.plan.lba.startLba ≤ y.plan.lba.startLba ∧
      y.plan.lba.startLba + y.plan.lba.blockCount ≤
        x.plan.lba.startLba + ((x :: xs).map fun x => x.plan.lba.blockCount).sum ∧
      (y.plan.device = x.plan.device ∧ y.plan.op = x.plan.op ∧ y.plan.flags = x.plan.flags) ∧
      ((x :: xs).getLast? = some y → y.plan.lba.startLba + y.plan.lba.blockCount =
        x.plan.lba.startLba + ((x :: xs).map fun x => x.plan.lba.blockCount).sum) := by
  induction xs generalizing x with
  | nil =>
    obtain rfl : y = x := by simpa using hy
    simp
  | cons z zs ih =>
    obtain ⟨⟨habut, hdevice, hop, hflags⟩, hrest⟩ := isChain_cons_cons.mp h
    rw [map_cons, sum_cons, getLast?_cons_cons, hdevice, hop, hflags]
    have hlast : (z :: zs).getLast? = some y → _ := fun hl =>
      (ih hrest (mem_of_getLast? hl)).2.2.2 hl
    rcases mem_cons.mp hy with rfl | hy
    · exact ⟨le_rfl, by omega, ⟨hdevice, hop, hflags⟩, fun hl => by rw [hlast hl]; omega⟩
    obtain ⟨hstart, hend, hsame, -⟩ := ih hrest hy
    exact ⟨by omega, by omega, hsame, fun hl => by rw [hlast hl]; omega⟩

lemma apart_of_isChain (h : xs.IsChain Abuts) (hx : x ∈ xs) (hy : y ∈ xs) (hne : x ≠ y) :
    ¬ x.plan.lba.Overlaps y.plan.lba := by
  induction xs with
  | nil => simp at hx
  | cons z zs ih =>
    have hrest : zs.IsChain Abuts := h.of_cons
    -- everything behind the head starts where the head ends, or later
    have hbehind : ∀ w ∈ zs, z.plan.lba.startLba + z.plan.lba.blockCount ≤ w.plan.lba.startLba := by
      intro w hw
      rcases zs with _ | ⟨z', zs⟩
      · simp at hw
      rw [(isChain_cons_cons.mp h).1.1]
      exact (mem_isChain hrest hw).1
    unfold LbaRange.Overlaps
    rcases mem_cons.mp hx with rfl | hx' <;> rcases mem_cons.mp hy with rfl | hy'
    · exact absurd rfl hne
    · have := hbehind y hy'
      omega
    · have := hbehind x hx'
      omega
    · exact ih hrest hx' hy'

section

variable (h : r.Tiled) (hx : x ∈ r.items)

include h hx

lemma Tiled.not_mustPrecede (hy : y ∈ r.items) : ¬ x.MustPrecede y := by
  rintro ⟨hnumber, hmust⟩
  have hne : x ≠ y := by
    rintro rfl
    exact lt_irrefl _ hnumber
  have hrest : r.rest ≠ [] := by
    intro hrest
    simp only [items, hrest, mem_singleton] at hx hy
    exact hne (hx.trans hy.symm)
  rcases hmust with hfence | ⟨-, hoverlap, -⟩
  · simp [h.fenceless hrest x hx] at hfence
  · exact apart_of_isChain h.chain hx hy hne hoverlap

lemma Tiled.conflicts_plan {p : BioPlan} (hp : x.plan.Conflicts p) : r.plan.Conflicts p := by
  obtain ⟨hstart, hend, ⟨hdevice, hop, -⟩, -⟩ := mem_isChain h.chain hx
  obtain ⟨hdevice', hoverlap, hwrite⟩ := hp
  refine ⟨hdevice.symm.trans hdevice', ?_, hop ▸ hwrite⟩
  unfold LbaRange.Overlaps at hoverlap ⊢
  simp only [plan, blocks, items]
  omega

lemma Tiled.requiresFence_plan
    (hfence : x.plan.requiresFence = true) : r.plan.requiresFence = true := by
  have hrest : r.rest = [] := by
    by_contra hrest
    simp [h.fenceless hrest x hx] at hfence
  obtain rfl : x = r.first := by simpa [items, hrest] using hx
  exact hfence

end

end Request

/-! ### Merging keeps requests tiled -/

lemma BioPlan.op_of_sameTransfer {p q : BioPlan} (h : p.sameTransfer q = true) : p.op = q.op := by
  unfold sameTransfer at h
  split at h <;> simp_all

lemma endLba_eq_some {r : LbaRange} {e : ℕ} (h : r.endLba = some e) :
    r.startLba + r.blockCount = e ∧ e < u64Limit := by
  simp only [endLba, checkedAdd, ite_none_right_eq_some, some.injEq] at h
  omega

namespace Request

variable {r : Request} {x : Submission} {m : BioPlan}

lemma Tiled.not_fence (h : r.Tiled) (hp : r.plan.requiresFence = false) (hx : x ∈ r.items) :
    x.plan.requiresFence = false := by
  by_contra hfence
  rw [Bool.not_eq_false] at hfence
  simp [h.requiresFence_plan hx hfence] at hp

lemma Tiled.append (h : r.Tiled) (hm : r.plan.mergeAdjacent x.plan = some m)
    (hfits : x.plan.lba.endLba.isSome) : m = (r.append x).plan ∧ (r.append x).Tiled := by
  simp only [BioPlan.mergeAdjacent, BioPlan.canMergeWith, extendBy,
    ite_none_right_eq_some, Bool.and_eq_true, Bool.not_eq_true', beq_iff_eq] at hm
  obtain ⟨⟨⟨⟨⟨⟨hp, hq⟩, hop⟩, hdevice⟩, hflags⟩, hend⟩, hmap⟩ := hm
  rw [if_pos hend] at hmap
  obtain rfl := some.inj hmap
  have hop := BioPlan.op_of_sameTransfer hop
  obtain ⟨hend, -⟩ := endLba_eq_some hend
  obtain ⟨e, he⟩ := isSome_iff_exists.mp hfits
  obtain ⟨he, hlt⟩ := endLba_eq_some he
  refine ⟨?_, ?_, ?_⟩
  · have hsat : saturatingAdd r.blocks x.plan.lba.blockCount =
      r.blocks + x.plan.lba.blockCount := by
      have : r.plan.lba.startLba + r.blocks = x.plan.lba.startLba := hend
      simp only [saturatingAdd]
      omega
    have hplan : r.plan.lba.blockCount = r.blocks := rfl
    rw [hplan, hsat]
    simp [plan, Request.append, items, blocks, Nat.add_assoc]
  · rw [items_append, isChain_append]
    refine ⟨h.chain, by simp, ?_⟩
    intro y hy z hz
    obtain rfl : z = x := by simpa using hz.symm
    obtain ⟨-, -, ⟨hdevice', hop', hflags'⟩, hlast⟩ := mem_isChain h.chain (mem_of_getLast? hy)
    exact ⟨(hlast hy).trans hend, hdevice'.trans hdevice, hop'.trans hop, hflags'.trans hflags⟩
  · intro _ y hy
    rcases mem_append.mp (items_append r x ▸ hy) with hy | hy
    · exact h.not_fence hp hy
    · rwa [mem_singleton.mp hy]

lemma Tiled.prepend (h : r.Tiled) (hm : r.plan.prependAdjacent x.plan = some m)
    (hfits : r.plan.lba.endLba.isSome) : m = (r.prepend x).plan ∧ (r.prepend x).Tiled := by
  simp only [BioPlan.prependAdjacent, prependBy, ite_none_left_eq_some,
    Bool.or_eq_true, not_or, Bool.not_eq_true, Bool.not_eq_false', bne_eq_false_iff_eq] at hm
  obtain ⟨⟨⟨⟨⟨hq, hp⟩, hop⟩, hdevice⟩, hflags⟩, hmap⟩ := hm
  have hend : x.plan.lba.endLba = some r.plan.lba.startLba := by
    by_contra hend
    simp [hend] at hmap
  rw [if_pos hend] at hmap
  obtain rfl := some.inj hmap
  have hop := BioPlan.op_of_sameTransfer hop
  obtain ⟨hend, -⟩ := endLba_eq_some hend
  obtain ⟨e, he⟩ := isSome_iff_exists.mp hfits
  obtain ⟨he, hlt⟩ := endLba_eq_some he
  refine ⟨?_, ?_, ?_⟩
  · have hsat : saturatingAdd r.blocks x.plan.lba.blockCount =
      x.plan.lba.blockCount + r.blocks := by
      have : r.plan.lba.blockCount = r.blocks := rfl
      simp only [saturatingAdd]
      omega
    have hplan : r.plan.lba.blockCount = r.blocks := rfl
    have hop' : r.plan.op = r.first.plan.op := rfl
    rw [hplan, hsat]
    simp only [plan, Request.prepend, items, blocks, map_cons, sum_cons,
      flatMap_cons, BioPlan.mk.injEq, true_and]
    exact ⟨hdevice, hop, hflags⟩
  · rw [items_prepend]
    exact isChain_cons_cons.mpr ⟨⟨hend, hdevice.symm, hop.symm, hflags.symm⟩, h.chain⟩
  · intro _ y hy
    rcases mem_cons.mp hy with rfl | hy
    · exact hq
    · exact h.not_fence hp hy

end Request

/-! ### The queue and its ledger -/

inductive QueueCall
  | submit (plan : BioPlan)
  | blockDispatch (id : ℕ)
  | unblockDispatch (id : ℕ)
  | pop
  | popTagged
  | drive (budget : ℕ)
  | complete (tag : ℕ) (result : Except Errno Unit)

inductive QueueAnswer
  | submitted (r : Except QueueError SubmitOutcome)
  | popped (r : Except QueueError (Option Bio))
  | poppedTagged (r : Except QueueError (Option BlockDispatch))
  | driven (step : BlockServiceStep)
  | completed (r : Except BlockCompletionError BlockCompletion)
  | done

namespace BlockService

def step (s : BlockService) : QueueCall → BlockService × QueueAnswer
  | .submit plan =>
    let (queue, answer) := s.queue.submit plan
    ({ s with queue }, .submitted answer)
  | .blockDispatch id => ({ s with queue := s.queue.blockDispatch id }, .done)
  | .unblockDispatch id => ({ s with queue := s.queue.unblockDispatch id }, .done)
  | .pop =>
    let (queue, depth, answer) := s.queue.popDispatchable s.depth
    ({ s with queue, depth }, .popped answer)
  | .popTagged =>
    let (s, answer) := s.popTagged
    (s, .poppedTagged answer)
  | .drive budget =>
    let (s, answer) := s.driveBlockTurn budget
    (s, .driven answer)
  | .complete tag result =>
    match s.tags.complete s.depth tag result with
    | .ok (completion, depth, tags) => ({ s with depth, tags }, .completed (.ok completion))
    | .error e => (s, .completed (.error e))

end BlockService

def QueueAnswer.dispatches : QueueAnswer → List Bio
  | .popped r => BlockQueue.popped r
  | .poppedTagged r => (BlockService.poppedTagged r).map (·.bio)
  | .driven step => step.dispatches.map (·.bio)
  | _ => []

def takePlace (x : Submission) : Place → List Request → List Request
  | .back, line =>
    match line.getLast? with
    | none => []
    | some r => line.dropLast ++ [r.append x]
  | .front, [] => []
  | .front, r :: line => r.prepend x :: line
  | .new, line => line ++ [.single x]

/-- A block service and the ledger of what it accepted and what it handed to the device. -/
structure Watched where
  service : BlockService
  accepted : List Submission
  served : List Request
  waiting : List Request
  dispatched : List Bio

namespace Watched

def new (maxPending queueDepth : ℕ) : Watched := ⟨.new maxPending queueDepth, [], [], [], []⟩

def accept (s : Watched) (plan : BioPlan) : Watched :=
  let x : Submission := ⟨s.accepted.length, plan⟩
  { s with
    accepted := s.accepted ++ [x]
    waiting := takePlace x (placeOf s.service.queue.pending plan) s.waiting }

def serve (s : Watched) (bios : List Bio) : Watched :=
  { s with
    served := s.served ++ s.waiting.take bios.length
    waiting := s.waiting.drop bios.length
    dispatched := s.dispatched ++ bios }

def note (s : Watched) : QueueCall → QueueAnswer → Watched
  | .submit plan, .submitted (.ok _) => s.accept plan
  | _, answer => s.serve answer.dispatches

def step (s : Watched) (c : QueueCall) : Watched × QueueAnswer :=
  let (service, answer) := s.service.step c
  ({ s.note c answer with service }, answer)

/-! ### What a service owes its callers -/

/-- Every accepted plan is carried by exactly one request, and every request covers exactly the
ranges and the buffers of its plans, in the order of their blocks. -/
structure Carries (s : Watched) : Prop where
  numbered : s.accepted.map (·.number) = List.range s.accepted.length
  once : ((s.served ++ s.waiting).flatMap Request.items).Perm s.accepted
  tiled : ∀ r ∈ s.served ++ s.waiting, r.Tiled
  dispatched : s.dispatched.map (·.plan) = s.served.map Request.plan
  pending : s.service.queue.pending.map (·.plan) = s.waiting.map Request.plan

/-- A plan is dispatched in a later request than every plan that must precede it. -/
def InOrder (s : Watched) : Prop :=
  ∀ x ∈ s.accepted, ∀ y ∈ s.accepted, x.MustPrecede y → ∀ earlier r later,
    s.served = earlier ++ r :: later → y ∈ r.items → ∃ t ∈ earlier, x ∈ t.items

/-- The range of the request that a plan joins does not leave the address space, and at the front it
overtakes neither a fence nor a plan it conflicts with. -/
def Harmless (pending : List Bio) (plan : BioPlan) : Place → Prop
  | .back => plan.lba.endLba.isSome
  | .front =>
    (∀ b ∈ pending.head?, b.plan.lba.endLba.isSome) ∧
      ∀ b ∈ pending.tail, b.plan.requiresFence = false ∧ ¬ b.plan.Conflicts plan
  | .new => True

instance (pending : List Bio) (plan : BioPlan) : ∀ place, Decidable (Harmless pending plan place)
  | .back => inferInstanceAs (Decidable (_ = _))
  | .front => inferInstanceAs (Decidable (_ ∧ _))
  | .new => isTrue trivial

/-- Every submission that is accepted takes its place without harm. -/
def Orderly (s : Watched) : QueueCall → Prop
  | .submit plan =>
    (s.service.queue.submit plan).2.isOk = true →
      Harmless s.service.queue.pending plan (placeOf s.service.queue.pending plan)
  | _ => True

end Watched

/-! ### The line of requests -/

/-- No submission of the second request has to precede one of the first. -/
def Follows (r t : Request) : Prop := ∀ x ∈ r.items, ∀ y ∈ t.items, ¬ y.MustPrecede x

/-- All requests in the order in which they were queued. -/
structure Line (accepted : List Submission) (line : List Request) : Prop where
  numbered : accepted.map (·.number) = List.range accepted.length
  once : (line.flatMap Request.items).Perm accepted
  tiled : ∀ r ∈ line, r.Tiled
  ordered : line.Pairwise Follows

namespace Line

variable {accepted : List Submission} {line rest : List Request} {r : Request} {y : Submission}

lemma nil : Line [] [] := ⟨rfl, .nil, by simp, .nil⟩

abbrev next (accepted : List Submission) (plan : BioPlan) : Submission := ⟨accepted.length, plan⟩

lemma next_not_mustPrecede (h : Line accepted line) (hr : r ∈ line) (hy : y ∈ r.items)
    (plan : BioPlan) : ¬ (next accepted plan).MustPrecede y := by
  rintro ⟨hlt, -⟩
  have hmem : y ∈ accepted := h.once.mem_iff.mp (mem_flatMap.mpr ⟨r, hr, hy⟩)
  have : y.number ∈ accepted.map (·.number) := mem_map_of_mem hmem
  rw [h.numbered, mem_range] at this
  exact absurd this hlt.not_gt

lemma numbered_next (h : Line accepted line) (plan : BioPlan) :
    (accepted ++ [next accepted plan]).map (·.number) =
      range (accepted ++ [next accepted plan]).length := by
  simp [h.numbered, range_succ]

lemma new (h : Line accepted line) (plan : BioPlan) :
    Line (accepted ++ [next accepted plan]) (line ++ [.single (next accepted plan)]) where
  numbered := h.numbered_next plan
  once := by simpa using h.once.append_right _
  tiled r hr := by
    rcases mem_append.mp hr with hr | hr
    · exact h.tiled r hr
    rw [mem_singleton.mp hr]
    exact ⟨by simp, by simp [Request.single]⟩
  ordered := by
    rw [pairwise_append]
    refine ⟨h.ordered, pairwise_singleton _ _, ?_⟩
    intro t ht u hu y hy z hz
    obtain rfl := mem_singleton.mp hu
    rw [mem_singleton.mp hz]
    exact h.next_not_mustPrecede ht hy plan

lemma join (h : Line accepted (line ++ r :: rest)) (plan : BioPlan) {r' : Request}
    (hitems : r'.items.Perm (next accepted plan :: r.items)) (htiled : r'.Tiled)
    (hrest : ∀ t ∈ rest, ∀ y ∈ t.items, ¬ y.MustPrecede (next accepted plan)) :
    Line (accepted ++ [next accepted plan]) (line ++ r' :: rest) where
  numbered := h.numbered_next plan
  once := by
    refine .trans ?_ ((h.once.cons (next accepted plan)).trans (perm_append_singleton _ _).symm)
    simp only [flatMap_append, flatMap_cons]
    exact ((hitems.append_right _).append_left _).trans perm_middle
  tiled t ht := by
    rcases mem_append.mp ht with ht | ht
    · exact h.tiled t (mem_append_left _ ht)
    rcases mem_cons.mp ht with rfl | ht
    · exact htiled
    · exact h.tiled t (by simp [ht])
  ordered := by
    have hmem : ∀ y ∈ r'.items, y = next accepted plan ∨ y ∈ r.items := fun y hy =>
      mem_cons.mp (hitems.mem_iff.mp hy)
    obtain ⟨hline, htail, hcross⟩ := pairwise_append.mp h.ordered
    obtain ⟨hhead, htail⟩ := pairwise_cons.mp htail
    refine pairwise_append.mpr ⟨hline, pairwise_cons.mpr ⟨fun t ht y hy => ?_, htail⟩, ?_⟩
    · rcases hmem y hy with rfl | hy
      · exact hrest t ht
      · exact hhead t ht y hy
    intro t ht u hu
    rcases mem_cons.mp hu with rfl | hu
    · intro y hy z hz
      rcases hmem z hz with rfl | hz
      · exact h.next_not_mustPrecede (mem_append_left _ ht) hy plan
      · exact hcross t ht r mem_cons_self y hy z hz
    · exact hcross t ht u (mem_cons_of_mem _ hu)

lemma precedes (h : Line accepted (line ++ r :: rest)) {x : Submission} (hx : x ∈ accepted)
    (hy : y ∈ r.items) (hmust : x.MustPrecede y) : ∃ t ∈ line, x ∈ t.items := by
  obtain ⟨t, ht, hxt⟩ := mem_flatMap.mp (h.once.mem_iff.mpr hx)
  obtain ⟨-, htail, -⟩ := pairwise_append.mp h.ordered
  rcases mem_append.mp ht with ht | ht
  · exact ⟨t, ht, hxt⟩
  rcases mem_cons.mp ht with rfl | ht
  · exact absurd hmust ((h.tiled t (by simp)).not_mustPrecede hxt hy)
  · exact absurd hmust ((pairwise_cons.mp htail).1 t ht y hy x hxt)

end Line

namespace Watched

/-- The invariant: the line is in order, and the ledger is the one of the queue. -/
structure Kept (s : Watched) : Prop where
  line : Line s.accepted (s.served ++ s.waiting)
  dispatched : s.dispatched.map (·.plan) = s.served.map Request.plan
  pending : s.service.queue.pending.map (·.plan) = s.waiting.map Request.plan

variable {s : Watched}

lemma kept_new (maxPending queueDepth : ℕ) : Kept (new maxPending queueDepth) :=
  ⟨Line.nil, rfl, rfl⟩

lemma Kept.carries (h : Kept s) : Carries s :=
  ⟨h.line.numbered, h.line.once, h.line.tiled, h.dispatched, h.pending⟩

lemma Kept.inOrder (h : Kept s) : InOrder s := by
  intro x hx y _ hmust earlier r later hserved hyr
  have hline := h.line
  rw [hserved, append_assoc, cons_append] at hline
  exact hline.precedes hx hyr hmust

lemma Kept.not_mustPrecede (h : Kept s) {t : Request} (ht : t ∈ s.waiting) {y x : Submission}
    (hy : y ∈ t.items) (hfence : t.plan.requiresFence = false) (hconf : ¬ t.plan.Conflicts x.plan) :
    ¬ y.MustPrecede x := by
  have htiled := h.line.tiled t (mem_append_right _ ht)
  rintro ⟨-, hyfence | hyconf⟩
  · simp [htiled.requiresFence_plan hy hyfence] at hfence
  · exact hconf (htiled.conflicts_plan hy hyconf)

lemma Kept.accept (h : Kept s) {plan : BioPlan} {queue : BlockQueue} {o : SubmitOutcome}
    (haccepts : Accepts s.service.queue plan (placeOf s.service.queue.pending plan) queue o)
    (hharmless : Harmless s.service.queue.pending plan (placeOf s.service.queue.pending plan)) :
    Kept { s.accept plan with service := { s.service with queue } } := by
  have hpend := h.pending
  have hline := h.line
  unfold Watched.accept
  generalize hplace : placeOf s.service.queue.pending plan = place at haccepts hharmless ⊢
  cases haccepts with
  | @back init b merged hpending hmerged =>
    rw [hpending, map_append, map_singleton, eq_comm, map_eq_append_iff] at hpend
    obtain ⟨line, last, hwaiting, hinit, hlast⟩ := hpend
    obtain ⟨r, rfl, hr⟩ := map_eq_singleton_iff.mp hlast
    rw [hwaiting, ← append_assoc] at hline
    rw [← hr] at hmerged
    obtain ⟨rfl, htiled⟩ := (hline.tiled r (by simp)).append
      (x := Line.next s.accepted plan) hmerged hharmless
    refine ⟨?_, h.dispatched, ?_⟩
    · simpa [takePlace, hwaiting] using
        hline.join plan (by simp [perm_append_singleton]) htiled (by simp)
    · simp [takePlace, hwaiting, hinit]
  | @front b rest merged hpending hmerged =>
    rw [hpending, map_cons, eq_comm, map_eq_cons_iff] at hpend
    obtain ⟨r, line, hwaiting, hr, hrest⟩ := hpend
    rw [hwaiting] at hline
    simp only [Harmless, hpending, head?_cons, mem_some_iff, forall_eq', tail_cons]
      at hharmless
    rw [← hr] at hmerged hharmless
    obtain ⟨rfl, htiled⟩ := (hline.tiled r (by simp)).prepend
      (x := Line.next s.accepted plan) hmerged hharmless.1
    refine ⟨?_, h.dispatched, ?_⟩
    · simp only [takePlace, hwaiting]
      refine hline.join plan (.refl _) htiled ?_
      intro t ht y hy
      have hplan : t.plan ∈ rest.map (·.plan) := hrest ▸ mem_map_of_mem ht
      obtain ⟨c, hc, hcplan⟩ := mem_map.mp hplan
      obtain ⟨hfence, hconf⟩ := hharmless.2 c hc
      rw [hcplan] at hfence hconf
      exact h.not_mustPrecede (by simp [hwaiting, ht]) hy hfence hconf
    · simp [takePlace, hwaiting, hrest]
  | new =>
    refine ⟨?_, h.dispatched, ?_⟩
    · simpa [takePlace] using hline.new plan
    · simp [takePlace, hpend, Request.plan, Request.blocks, Request.single, Request.items]

lemma Kept.serve (h : Kept s) (service : BlockService) (bios : List Bio)
    (hpending : s.service.queue.pending = bios ++ service.queue.pending) :
    Kept { s.serve bios with service } := by
  have hpend := h.pending
  rw [hpending, map_append, eq_comm, map_eq_append_iff] at hpend
  obtain ⟨front, rest, hwaiting, hfront, hrest⟩ := hpend
  have hlen : front.length = bios.length := by simpa using congrArg length hfront
  have htake : s.waiting.take bios.length = front := by simp [hwaiting, ← hlen]
  have hdrop : s.waiting.drop bios.length = rest := by simp [hwaiting, ← hlen]
  refine ⟨?_, ?_, ?_⟩
  · simpa [Watched.serve, htake, hdrop, hwaiting] using h.line
  · simp [Watched.serve, htake, h.dispatched, hfront]
  · simp [Watched.serve, hdrop, hrest]

lemma pending_of_step {c : QueueCall} (hc : ∀ plan, c ≠ .submit plan) (s : BlockService) :
    s.queue.pending = (s.step c).2.dispatches ++ (s.step c).1.queue.pending := by
  cases c with
  | submit plan => exact absurd rfl (hc plan)
  | blockDispatch id => rfl
  | unblockDispatch id => rfl
  | pop => exact (BlockQueue.took_popDispatchable s.queue s.depth).pending
  | popTagged => exact (BlockService.dispatched_popTagged s).took.pending
  | drive budget => exact (BlockService.dispatched_dispatchWithin budget s).took.pending
  | complete tag result =>
    rcases hr : s.tags.complete s.depth tag result with e | ⟨completion, depth, tags⟩ <;>
      simp [BlockService.step, hr, QueueAnswer.dispatches]

lemma Kept.step (h : Kept s) (c : QueueCall) (hc : Orderly s c) : Kept (s.step c).1 := by
  by_cases hsubmit : ∃ plan, c = .submit plan
  · obtain ⟨plan, rfl⟩ := hsubmit
    rcases s.service.queue.submit_cases plan with ⟨e, he⟩ | ⟨queue, o, ho, haccepts⟩
    · have := h.serve s.service [] rfl
      simpa [Watched.step, BlockService.step, he, note, QueueAnswer.dispatches] using this
    · have := h.accept haccepts (hc (by rw [ho]; rfl))
      simpa [Watched.step, BlockService.step, ho, note] using this
  · have hne : ∀ plan, c ≠ .submit plan := fun plan hplan => hsubmit ⟨plan, hplan⟩
    have hnote : s.note c (s.service.step c).2 = s.serve (s.service.step c).2.dispatches := by
      cases c <;> first | rfl | exact absurd rfl (hne _)
    simp only [Watched.step, hnote]
    exact h.serve _ _ (pending_of_step hne s.service)

/-- **Order of dispatch**: as long as every accepted plan takes its place without harm, every plan
is carried by exactly one request, and none leaves before a fence or a conflicting plan that was
submitted before it. -/
theorem dispatch_in_order (maxPending queueDepth : ℕ) (calls : List QueueCall)
    (hcalls : Runs.Allowed step Orderly (new maxPending queueDepth) calls) :
    Carries (Runs.runSpec step (new maxPending queueDepth) calls).1 ∧
      InOrder (Runs.runSpec step (new maxPending queueDepth) calls).1 := by
  have hkept : Kept (Runs.runSpec step (new maxPending queueDepth) calls).1 :=
    Runs.invariant Kept (fun s c h hc => h.step c hc) calls (kept_new maxPending queueDepth) hcalls
  exact ⟨hkept.carries, hkept.inOrder⟩

def writePlan (startLba blockCount bufferKey : ℕ) : BioPlan :=
  ⟨3, .write, ⟨startLba, blockCount⟩, [⟨bufferKey, 0, 512 * blockCount⟩], .empty⟩

def flushPlan : BioPlan := ⟨3, .flush, ⟨0, 0⟩, [], .empty⟩

def writesThenFlush : List QueueCall :=
  [.submit (writePlan 10 2 1), .submit (writePlan 8 2 2), .submit flushPlan, .popTagged,
    .complete 1 (.ok ()), .popTagged]

theorem dispatch_in_order_writesThenFlush :
    Runs.Allowed step Orderly (new 4 1) writesThenFlush ∧
      Carries (Runs.runSpec step (new 4 1) writesThenFlush).1 ∧
      InOrder (Runs.runSpec step (new 4 1) writesThenFlush).1 := by
  have hcalls : Runs.Allowed step Orderly (new 4 1) writesThenFlush := by
    refine ⟨fun _ => ?_, fun _ => ?_, fun _ => ?_, trivial, trivial, trivial, trivial⟩ <;> decide
  exact ⟨hcalls, dispatch_in_order 4 1 writesThenFlush hcalls⟩

def pastFlush : List QueueCall :=
  [.submit (writePlan 10 2 1), .submit flushPlan, .submit (writePlan 8 2 2), .popTagged]

def pastOverlap : List QueueCall :=
  [.submit (writePlan 10 2 1), .submit (writePlan 7 2 2), .submit (writePlan 8 2 3), .popTagged]

/-- The plan that joins the front request is dispatched before a fence, and a write to the same
block, submitted before it. -/
theorem front_merge_overtakes :
    ¬ InOrder (Runs.runSpec step (new 4 1) pastFlush).1 ∧
      ¬ InOrder (Runs.runSpec step (new 4 1) pastOverlap).1 := by
  constructor
  · intro h
    obtain ⟨t, ht, -⟩ := h ⟨1, flushPlan⟩ (by decide) ⟨2, writePlan 8 2 2⟩ (by decide) (by decide)
      [] ⟨⟨2, writePlan 8 2 2⟩, [⟨0, writePlan 10 2 1⟩]⟩ [] (by decide) (by decide)
    simp at ht
  · intro h
    obtain ⟨t, ht, -⟩ := h ⟨1, writePlan 7 2 2⟩ (by decide) ⟨2, writePlan 8 2 3⟩ (by decide)
      (by decide) [] ⟨⟨2, writePlan 8 2 3⟩, [⟨0, writePlan 10 2 1⟩]⟩ [] (by decide) (by decide)
    simp at ht

end Watched

end TxKernel.Block
