import Mathlib.Data.List.GetD
import Mathlib.Order.Interval.Finset.Nat
import Mathlib.Order.Interval.Multiset
import TxKernel.Vm.PrivateSets
import TxKernel.Vm.Remap

/-!
Who owns which set of private pages. A rewrite only adds sets to the heap, and a piece of an entry
owns one that was added for it unless it is the whole entry, so two entries never come to own the
same set.
-/

namespace TxKernel.Vm

open TxKernel.Spans List PrivateHeap UserRange Option VmEntry VmEntryRewrite

/-! ### Growing heaps -/

/-- The sets and frames of one heap are those of the other, with more behind them. -/
structure PrivateHeap.Grows (heap heap' : PrivateHeap) : Prop where
  sets : heap.sets <+: heap'.sets
  frames : heap.frames <+: heap'.frames

namespace PrivateHeap

variable {heap heap' heap'' : PrivateHeap} {s : ℕ}

lemma Grows.refl (heap : PrivateHeap) : heap.Grows heap := ⟨prefix_rfl, prefix_rfl⟩

lemma Grows.trans (h : heap.Grows heap') (h' : heap'.Grows heap'') : heap.Grows heap'' :=
  ⟨h.sets.trans h'.sets, h.frames.trans h'.frames⟩

lemma Grows.set_eq (h : heap.Grows heap') (hs : s < heap.sets.length) :
    heap'.set s = heap.set s := by
  obtain ⟨rest, hrest⟩ := h.sets
  rw [set, set, ← hrest, getD_append _ _ _ _ hs]

lemma grows_newSet (heap : PrivateHeap) (set : PrivatePageSet) : heap.Grows (heap.newSet set) :=
  ⟨prefix_append _ _, prefix_rfl⟩

lemma set_newSet (heap : PrivateHeap) (set : PrivatePageSet) :
    (heap.newSet set).set heap.sets.length = set := by
  simp [PrivateHeap.set, newSet]

lemma newCapWith_ok {zone : ℕ → Bool} {set : PrivatePageSet}
    (h : heap.newCapWith zone set = .ok (heap', s)) :
    heap' = heap.newSet set ∧ s = heap.sets.length := by
  unfold newCapWith at h
  split_ifs at h
  cases h
  exact ⟨rfl, rfl⟩

end PrivateHeap

/-! ### Entries and their sets -/

def owned (l : List VmEntry) : Multiset ℕ := ↑(l.filterMap fun e => e.owners.priv)

@[simp] lemma owned_nil : owned [] = 0 := rfl

lemma owned_append (l m : List VmEntry) : owned (l ++ m) = owned l + owned m := by
  simp [owned]

lemma owned_cons (e : VmEntry) (l : List VmEntry) : owned (e :: l) = owned [e] + owned l :=
  owned_append [e] l

lemma owned_singleton (e : VmEntry) : owned [e] = ↑e.owners.priv.toList := by
  rcases h : e.owners.priv with _ | s <;> simp [owned, h]

variable {l : List VmEntry}

lemma owned_perm {m : List VmEntry} (h : l.Perm m) : owned l = owned m :=
  Multiset.coe_eq_coe.mpr (h.filterMap _)

lemma owned_le {m : List VmEntry} (h : l.Sublist m) : owned l ≤ owned m :=
  Multiset.coe_le.mpr (h.filterMap _).subperm

lemma eq_of_owned (h : (owned l).Nodup) {a b : VmEntry} (ha : a ∈ l) (hb : b ∈ l) {s : ℕ}
    (hsa : a.owners.priv = some s) (hsb : b.owners.priv = some s) :
    a = b := by
  induction l with
  | nil => simp at ha
  | cons c l ih =>
    rw [owned_cons, Multiset.nodup_add] at h
    obtain ⟨-, hl, hdisj⟩ := h
    have hclash : ∀ e ∈ l, e.owners.priv = some s → c.owners.priv = some s → False :=
      fun e he hes hcs => by
        have h1 : s ∈ owned [c] := by simp [owned_singleton, hcs]
        have h2 : s ∈ owned l := by
          rw [owned, Multiset.mem_coe, mem_filterMap]
          exact ⟨e, he, hes⟩
        exact Multiset.disjoint_left.mp hdisj h1 h2
    rcases mem_cons.mp ha with hac | hal <;> rcases mem_cons.mp hb with hbc | hbl
    · rw [hac, hbc]
    · exact (hclash b hbl hsb (hac ▸ hsa)).elim
    · exact (hclash a hal hsa (hbc ▸ hsb)).elim
    · exact ih hl hal hbl

namespace VmEntry

def frameAt (heap : PrivateHeap) (e : VmEntry) (a : ℕ) : Option PrivateFrameSnapshot :=
  e.owners.priv.bind fun s => heap.lookup s ((a - e.range.start) / userPageSize)

/-- The set of the entry is on the heap and has pages of the entry only. -/
def Fits (heap : PrivateHeap) (e : VmEntry) : Prop :=
  ∀ s, e.owners.priv = some s →
    s < heap.sets.length ∧ (heap.set s).Within e.range.pageCount heap.frames.length

/-- The keys of all pages of the entry, and the one behind them, are in range. -/
def KeysFit (heap : PrivateHeap) (e : VmEntry) : Prop :=
  ∀ s, e.owners.priv = some s → (heap.set s).keyBase + e.range.pageCount < 2 ^ 64

instance (heap : PrivateHeap) (e : VmEntry) : Decidable (e.KeysFit heap) :=
  inferInstanceAs (Decidable (∀ s ∈ e.owners.priv,
    (heap.set s).keyBase + e.range.pageCount < 2 ^ 64))

structure Keyed (heap : PrivateHeap) (e : VmEntry) : Prop where
  fits : e.Fits heap
  keysFit : e.KeysFit heap

variable {heap heap' : PrivateHeap} {e : VmEntry}

lemma fits_of_none (h : e.owners.priv = none) : e.Fits heap := fun s hs => by
  rw [h] at hs
  cases hs

lemma frameAt_of_none (h : e.owners.priv = none) (a : ℕ) : e.frameAt heap a = none := by
  rw [frameAt, h, bind_none]

lemma frameAt_of_some {s : ℕ} (h : e.owners.priv = some s) (a : ℕ) :
    e.frameAt heap a = ((heap.set s).lookup ((a - e.range.start) / userPageSize)).map
      fun f => snapshotFromFrame (heap.frame f) := by
  rw [frameAt, h, bind_some]
  rfl

lemma pageCount_lt (e : VmEntry) : e.range.pageCount < 2 ^ 52 := by
  have := e.range.stop_lt
  have := e.range.start_add_len
  unfold pageCount userPageSize
  omega

lemma Fits.grows (h : e.Fits heap) (hg : heap.Grows heap') : e.Fits heap' := fun s hs => by
  obtain ⟨h1, h2⟩ := h s hs
  rw [hg.set_eq h1]
  exact ⟨h1.trans_le hg.sets.length_le, h2.mono le_rfl hg.frames.length_le⟩

lemma Keyed.grows (h : e.Keyed heap) (hg : heap.Grows heap') : e.Keyed heap' :=
  ⟨h.fits.grows hg, fun s hs => by
    rw [hg.set_eq (h.fits s hs).1]
    exact h.keysFit s hs⟩

lemma Fits.frameAt_grows (h : e.Fits heap) (hg : heap.Grows heap') (a : ℕ) :
    e.frameAt heap' a = e.frameAt heap a := by
  rcases hs : e.owners.priv with _ | s
  · rw [frameAt_of_none hs, frameAt_of_none hs]
  obtain ⟨h1, h2⟩ := h s hs
  rw [frameAt_of_some hs, frameAt_of_some hs, hg.set_eq h1]
  refine map_congr fun f hf => ?_
  obtain ⟨rest, hrest⟩ := hg.frames
  rw [PrivateHeap.frame, PrivateHeap.frame, ← hrest, getD_append _ _ _ _ (h2.frame _ f hf)]

lemma Fits.frameAt_of_isEmpty (h : e.Fits heap)
    (hempty : ∀ s, e.owners.priv = some s → heap.isEmpty s = true) (a : ℕ) :
    e.frameAt heap a = none := by
  rcases hs : e.owners.priv with _ | s
  · exact frameAt_of_none hs a
  have hz := hempty s hs
  rw [PrivateHeap.isEmpty, decide_eq_true_eq] at hz
  rw [frameAt_of_some hs, (h s hs).2.lookup_of_empty hz, map_none]

lemma keyed_newSet {set : PrivatePageSet} (hs : e.owners.priv = some heap.sets.length)
    (h1 : set.Within e.range.pageCount heap.frames.length)
    (h2 : set.keyBase + e.range.pageCount < 2 ^ 64) : e.Keyed (heap.newSet set) := by
  constructor
  · intro s hs'
    rw [hs] at hs'
    cases hs'
    rw [set_newSet]
    exact ⟨by simp [newSet], h1⟩
  · intro s hs'
    rw [hs] at hs'
    cases hs'
    rw [set_newSet]
    exact h2

end VmEntry

/-! ### Handing pages on -/

/-- What `rs` find at `x` is what `l` found at `back x`; the sets they own are among `budget` and
those that came with the new heap. -/
structure Passes (back : ℕ → ℕ) (heap : PrivateHeap) (l : List VmEntry) (budget : Multiset ℕ)
    (heap' : PrivateHeap) (rs : List VmEntry) : Prop where
  grows : heap.Grows heap'
  owned_le : owned rs ≤ budget + Multiset.Ico heap.sets.length heap'.sets.length
  keyed : (∀ e ∈ l, e.Keyed heap) → ∀ b ∈ rs, b.Keyed heap'
  frameAt : (∀ e ∈ l, e.Keyed heap) → ∀ b ∈ rs, ∀ x, b.range.containsAddr x →
    ∃ e ∈ l, e.range.containsAddr (back x) ∧ b.frameAt heap' x = e.frameAt heap (back x)

namespace Passes

variable {back : ℕ → ℕ} {heap heap1 heap2 : PrivateHeap} {l m rs qs : List VmEntry}
  {B C : Multiset ℕ}

lemma nil (back : ℕ → ℕ) (heap : PrivateHeap) (l : List VmEntry) (B : Multiset ℕ) :
    Passes back heap l B heap [] :=
  ⟨.refl heap, Multiset.zero_le _, fun _ b hb => by simp at hb, fun _ b hb => by simp at hb⟩

lemma refl (heap : PrivateHeap) (l : List VmEntry) : Passes id heap l (owned l) heap l :=
  ⟨.refl heap, by simp, fun h => h, fun _ b hb x hx => ⟨b, hb, hx, rfl⟩⟩

lemma weaken (h : Passes back heap l B heap1 rs) (hl : ∀ e ∈ l, e ∈ m) (hB : B ≤ C) :
    Passes back heap m C heap1 rs := by
  refine ⟨h.grows, h.owned_le.trans (by gcongr), fun hm => h.keyed fun e he => hm e (hl e he),
    fun hm b hb x hx => ?_⟩
  obtain ⟨e, he, h1, h2⟩ := h.frameAt (fun e he => hm e (hl e he)) b hb x hx
  exact ⟨e, hl e he, h1, h2⟩

lemma fresh_add (h : heap.Grows heap1) (h' : heap1.Grows heap2) :
    Multiset.Ico heap.sets.length heap1.sets.length +
      Multiset.Ico heap1.sets.length heap2.sets.length =
        Multiset.Ico heap.sets.length heap2.sets.length :=
  Multiset.Ico_add_Ico_eq_Ico h.sets.length_le h'.sets.length_le

lemma append (h : Passes back heap l B heap1 rs) (h' : Passes back heap1 m C heap2 qs) :
    Passes back heap (l ++ m) (B + C) heap2 (rs ++ qs) := by
  have hl : (∀ e ∈ l ++ m, e.Keyed heap) → ∀ e ∈ l, e.Keyed heap := fun hk e he =>
    hk e (by simp [he])
  have hm : (∀ e ∈ l ++ m, e.Keyed heap) → ∀ e ∈ m, e.Keyed heap1 := fun hk e he =>
    (hk e (by simp [he])).grows h.grows
  refine ⟨h.grows.trans h'.grows, ?_, fun hk b hb => ?_, fun hk b hb x hx => ?_⟩
  · calc owned (rs ++ qs) = owned rs + owned qs := owned_append rs qs
      _ ≤ (B + Multiset.Ico heap.sets.length heap1.sets.length) +
          (C + Multiset.Ico heap1.sets.length heap2.sets.length) :=
        add_le_add h.owned_le h'.owned_le
      _ = B + C + Multiset.Ico heap.sets.length heap2.sets.length := by
        rw [add_add_add_comm, fresh_add h.grows h'.grows]
  · rcases mem_append.mp hb with hb | hb
    · exact (h.keyed (hl hk) b hb).grows h'.grows
    · exact h'.keyed (hm hk) b hb
  · rcases mem_append.mp hb with hb | hb
    · obtain ⟨e, he, h1, h2⟩ := h.frameAt (hl hk) b hb x hx
      refine ⟨e, by simp [he], h1, ?_⟩
      rw [(h.keyed (hl hk) b hb).fits.frameAt_grows h'.grows, h2]
    · obtain ⟨e, he, h1, h2⟩ := h'.frameAt (hm hk) b hb x hx
      refine ⟨e, by simp [he], h1, ?_⟩
      rw [h2, (hk e (by simp [he])).fits.frameAt_grows h.grows]

lemma trans (h : Passes id heap l B heap1 rs) (h' : Passes back heap1 rs (owned rs) heap2 qs) :
    Passes back heap l B heap2 qs := by
  refine ⟨h.grows.trans h'.grows, ?_, fun hk => h'.keyed (h.keyed hk), fun hk b hb x hx => ?_⟩
  · calc owned qs ≤ owned rs + Multiset.Ico heap1.sets.length heap2.sets.length := h'.owned_le
      _ ≤ B + Multiset.Ico heap.sets.length heap1.sets.length +
          Multiset.Ico heap1.sets.length heap2.sets.length := by gcongr; exact h.owned_le
      _ = B + Multiset.Ico heap.sets.length heap2.sets.length := by
        rw [add_assoc, fresh_add h.grows h'.grows]
  · obtain ⟨c, hc, h1, h2⟩ := h'.frameAt (h.keyed hk) b hb x hx
    obtain ⟨e, he, h3, h4⟩ := h.frameAt hk c hc (back x) h1
    exact ⟨e, he, h3, h2.trans h4⟩

variable {step : PrivateHeap → VmEntry → PrivateHeap → List VmEntry → Prop}

lemma threaded_filter (q : VmEntry → Bool) (hstep : ∀ heap e heap1 es, step heap e heap1 es →
      Passes back heap [e] (owned ([e].filter q)) heap1 es) (h : Threaded step heap l heap1 rs) :
    Passes back heap l (owned (l.filter q)) heap1 rs := by
  induction h with
  | nil => exact nil ..
  | @cons _ _ _ e _ l _ hs _ ih =>
    rw [← singleton_append, filter_append, owned_append]
    exact (hstep _ _ _ _ hs).append ih

lemma threaded
    (hstep : ∀ heap e heap1 es, step heap e heap1 es → Passes back heap [e] (owned [e]) heap1 es)
    (h : Threaded step heap l heap1 rs) : Passes back heap l (owned l) heap1 rs := by
  have := threaded_filter (fun _ => true) (by simpa using hstep) h
  rwa [filter_true] at this

end Passes

/-! ### Cuts -/

namespace VmEntry

variable {zone : ℕ → Bool} {heap heap' : PrivateHeap} {e b : VmEntry} {start stop : ℕ}
  {prot : Prot}

lemma subPrivate_ok {priv : Option ℕ}
    (h : subPrivate zone heap e start stop prot = .ok (heap', priv)) :
    (heap' = heap ∧ priv = none ∧ ∀ s, e.owners.priv = some s → heap.isEmpty s = true) ∨
      ∃ set, heap' = heap.newSet set ∧ priv = some heap.sets.length ∧
        ((set = .new ∧ ∀ s, e.owners.priv = some s → heap.isEmpty s = true) ∨
          ∃ s, e.owners.priv = some s ∧ set = (heap.set s).sliced
            (start / userPageSize - e.range.start / userPageSize)
            (stop / userPageSize - e.range.start / userPageSize)
            (start / userPageSize - e.range.start / userPageSize)) := by
  have hnew : ∀ {set : PrivatePageSet}, ((heap.newCapWith zone set).map fun r => (r.1, some r.2)) =
      .ok (heap', priv) → heap' = heap.newSet set ∧ priv = some heap.sets.length := by
    intro set hs
    obtain ⟨⟨h1, s⟩, h2, h3⟩ := map_ok hs
    cases h3
    obtain ⟨rfl, rfl⟩ := newCapWith_ok h2
    exact ⟨rfl, rfl⟩
  unfold subPrivate at h
  split at h
  · rename_i parent hp
    split_ifs at h with hempty hwrite
    · obtain ⟨h1, h2⟩ := hnew h
      refine .inr ⟨_, h1, h2, .inl ⟨rfl, fun s hs => ?_⟩⟩
      rw [hp] at hs
      cases hs
      exact hempty
    · cases h
      refine .inl ⟨rfl, rfl, fun s hs => ?_⟩
      rw [hp] at hs
      cases hs
      exact hempty
    · obtain ⟨h1, h2⟩ := hnew h
      exact .inr ⟨_, h1, h2, .inr ⟨parent, hp, rfl⟩⟩
  · rename_i hp
    have hnone : ∀ s, e.owners.priv = some s → heap.isEmpty s = true := fun s hs => by
      rw [hp] at hs
      cases hs
    split_ifs at h
    · obtain ⟨h1, h2⟩ := hnew h
      exact .inr ⟨_, h1, h2, .inl ⟨rfl, hnone⟩⟩
    · cases h
      exact .inl ⟨rfl, rfl, hnone⟩

lemma passes_newSet {set : PrivatePageSet} (hb : b.owners.priv = some heap.sets.length)
    (hkeyed : e.Keyed heap → b.Keyed (heap.newSet set))
    (hframe : e.Keyed heap → ∀ x, b.range.containsAddr x →
      e.range.containsAddr x ∧ b.frameAt (heap.newSet set) x = e.frameAt heap x) :
    Passes id heap [e] 0 (heap.newSet set) [b] := by
  refine ⟨heap.grows_newSet set, ?_, fun hk c hc => ?_, fun hk c hc x hx => ?_⟩
  · simp [owned_singleton, hb, newSet]
  · rw [mem_singleton.mp hc]
    exact hkeyed (hk e (by simp))
  rw [mem_singleton] at hc
  subst hc
  exact ⟨e, by simp, hframe (hk e (by simp)) x hx⟩

section

variable (hs : e.range.start ≤ start) (ht : stop ≤ e.range.stop)

include hs ht

/-- **A piece** finds what its entry found, through a set of its own. -/
lemma passes_subEntry (h : subEntry zone heap e start stop prot = .ok (heap', b)) :
    Passes id heap [e] 0 heap' [b] := by
  obtain ⟨hp, hpriv⟩ := subEntry_ok h
  have hbs := hp.start_eq
  have hbt := hp.stop_eq
  have hin : ∀ x, b.range.containsAddr x → e.range.containsAddr x := fun x hx =>
    ⟨by omega, by omega⟩
  rcases subPrivate_ok hpriv with ⟨rfl, hb, hempty⟩ | ⟨set, rfl, hb, hset⟩
  · refine ⟨.refl _, by simp [owned_singleton, hb], fun _ c hc => ?_, fun hk c hc x hx => ?_⟩
    · rw [mem_singleton.mp hc]
      exact ⟨fits_of_none hb, fun s hs => by rw [hb] at hs; cases hs⟩
    rw [mem_singleton] at hc
    subst hc
    refine ⟨e, by simp, hin x hx, ?_⟩
    rw [frameAt_of_none hb, id, (hk e (by simp)).fits.frameAt_of_isEmpty hempty]
  rcases hset with ⟨rfl, hempty⟩ | ⟨s, hes, rfl⟩
  · refine passes_newSet hb (fun _ => ?_) fun hk x hx => ⟨hin x hx, ?_⟩
    · have := b.pageCount_lt
      exact keyed_newSet hb PrivatePageSet.within_new (by simp [PrivatePageSet.new]; omega)
    rw [frameAt_of_some hb, set_newSet, PrivatePageSet.lookup_new,
      hk.fits.frameAt_of_isEmpty hempty]
    rfl
  -- the slice starts as many pages into the set as the piece into the entry
  have hes1 := e.range.start_aligned
  have hbs1 := b.range.start_aligned
  have hbt1 := b.range.stop_aligned
  have hlt := b.range.start_lt_stop
  have hcount : b.range.pageCount = stop / userPageSize - e.range.start / userPageSize -
      (start / userPageSize - e.range.start / userPageSize) := by
    unfold pageCount len userPageSize at *
    omega
  have hle : start / userPageSize - e.range.start / userPageSize ≤
      stop / userPageSize - e.range.start / userPageSize := by
    unfold userPageSize at *
    omega
  have hle' : stop / userPageSize - e.range.start / userPageSize ≤ e.range.pageCount := by
    unfold pageCount len userPageSize at *
    omega
  have hslice : e.Keyed heap → _ := fun hk =>
    (hk.fits s hes).2.sliced (hk.keysFit s hes) hle hle'
  refine passes_newSet hb (fun hk => ?_) fun hk x hx => ⟨hin x hx, ?_⟩
  · obtain ⟨h1, h2, -⟩ := hslice hk
    have := hk.keysFit s hes
    refine keyed_newSet hb (hcount ▸ h1) ?_
    rw [h2]
    omega
  obtain ⟨-, -, h3⟩ := hslice hk
  rw [frameAt_of_some hb, set_newSet, frameAt_of_some hes, h3]
  · have hoff : start / userPageSize - e.range.start / userPageSize +
        (x - b.range.start) / userPageSize = (x - e.range.start) / userPageSize := by
      unfold userPageSize at *
      omega
    rw [hoff]
    rfl
  · unfold userPageSize at *
    omega

lemma passes_subEntryIf {c : Prop} [Decidable c] {o : Option VmEntry}
    (h : subEntryIf zone (decide c) heap e start stop prot = .ok (heap', o)) :
    Passes id heap [e] 0 heap' o.toList := by
  have h' := subEntryIf_ok h
  split_ifs at h'
  · obtain ⟨b, rfl, hb⟩ := h'
    exact passes_subEntry hs ht hb
  · obtain ⟨rfl, rfl⟩ := h'
    exact .nil ..

end

lemma passes_same (hrange : b.range = e.range) (hpriv : b.owners.priv = e.owners.priv) :
    Passes id heap [e] (owned [e]) heap [b] := by
  refine ⟨.refl heap, by simp [owned_singleton, hpriv], fun hk c hc => ?_, fun _ c hc x hx => ?_⟩
  · rw [mem_singleton.mp hc]
    refine ⟨fun s hs => ?_, fun s hs => ?_⟩ <;> rw [hrange] <;> rw [hpriv] at hs
    · exact (hk e (by simp)).fits s hs
    · exact (hk e (by simp)).keysFit s hs
  rw [mem_singleton] at hc
  subst hc
  refine ⟨e, by simp, hrange ▸ hx, ?_⟩
  rw [frameAt, hpriv, hrange]
  rfl

lemma passes_protectWhole (h : protectWhole zone heap e prot = .ok (heap', b)) :
    Passes id heap [e] (owned [e]) heap' [b] := by
  unfold protectWhole at h
  split_ifs at h with hnone
  · split at h
    · cases h
    rename_i heap1 s hs
    cases h
    obtain ⟨rfl, rfl⟩ := newCapWith_ok hs
    have he : e.owners.priv = none := by
      rw [Bool.and_eq_true, isNone_iff_eq_none] at hnone
      exact hnone.1
    have hb : (withPrivate { e with prot := prot } (some heap.sets.length)).owners.priv =
        some heap.sets.length := rfl
    refine (passes_newSet (e := e) hb (fun _ => ?_) fun _ x hx => ⟨hx, ?_⟩).weaken (by simp)
      (Multiset.zero_le _)
    · have := e.pageCount_lt
      exact keyed_newSet hb PrivatePageSet.within_new (by
        show 0 + e.range.pageCount < 2 ^ 64
        omega)
    · rw [frameAt_of_some hb, set_newSet, PrivatePageSet.lookup_new, frameAt_of_none he]
      rfl
  · cases h
    exact passes_same rfl rfl

/-- **A cut** hands the pages of the entry on to the pieces, and its set if it is taken as a
whole. -/
lemma passes_splitRewrite {target : UserRange} {p : Option Prot} {w : VmEntryRewrite}
    (h : splitRewrite zone heap e target p = .ok (heap', w)) :
    Passes id heap [e] (if e.range = target then owned [e] else 0) heap' w.intoEntries := by
  obtain ⟨hin, hcase⟩ := splitRewrite_ok h
  have hlt := target.start_lt_stop
  rcases hcase with ⟨-, -, rfl, rfl⟩ | ⟨heq, prot, b, -, rfl, hb⟩ | ⟨-, h1, h2, hb, ht, ha⟩
  · exact .nil ..
  · rw [if_pos heq]
    exact passes_protectWhole hb
  have htarget : Passes id h1 [e] 0 h2 w.target.toList := by
    rcases p with _ | prot
    · simp only [subTarget, Except.ok.injEq, Prod.mk.injEq] at ht
      rw [← ht.1, ← ht.2]
      exact .nil ..
    · exact passes_subEntryIf (c := True) hin.1 hin.2 (by simpa [subTarget] using ht)
  refine (((passes_subEntryIf le_rfl (by omega) hb).append htarget).append
    (passes_subEntryIf (by omega) le_rfl ha)).weaken ?_ (Multiset.zero_le _)
  simp

end VmEntry

section

variable {zone : ℕ → Bool} {range old new : UserRange} {p : Option Prot}
  {heap heap' : PrivateHeap} {e : VmEntry} {es : List VmEntry}

lemma Cuts.passes (h : Cuts zone range p heap e heap' es) :
    Passes id heap [e] (owned [e]) heap' es := by
  obtain ⟨overlap, w, -, hw, rfl⟩ := h
  refine (passes_splitRewrite hw).weaken (fun e he => he) ?_
  split_ifs
  · exact le_rfl
  · exact Multiset.zero_le _

lemma Removes.passes (h : Removes zone range heap e heap' es) :
    Passes id heap [e] (owned [e]) heap' es := by
  rcases h with ⟨-, rfl, rfl⟩ | h
  · exact .refl ..
  · exact h.passes

lemma Removes.eq_nil (h : Removes zone range heap e heap' es)
    (hin : range.containsRange e.range) : es = [] := by
  have hlt := e.range.start_lt_stop
  rcases h with ⟨hno, -, -⟩ | hcut
  · exact absurd ⟨by omega, by omega⟩ hno
  obtain ⟨overlap, w, h1, h2, hc, rfl⟩ := hcut.cutAt
  have hb := hc.before
  have ha := hc.after
  have ht : w.target = none := hc.target
  rw [if_neg (by omega)] at hb ha
  simp [intoEntries, hb, ha, ht]

lemma Keeps.passes (h : Keeps zone old new heap e heap' es) :
    Passes id heap [e] (owned ([e].filter fun e => ¬ old.containsRange e.range)) heap' es := by
  obtain ⟨heap1, es1, hrem, hth⟩ := h
  by_cases hin : old.containsRange e.range
  · obtain rfl := hrem.eq_nil hin
    cases hth
    have hp := hrem.passes
    exact ⟨hp.grows, Multiset.zero_le _, hp.keyed, hp.frameAt⟩
  have hq : [e].filter (fun e => ¬ old.containsRange e.range) = [e] :=
    filter_eq_self.mpr fun b hb => by
      rw [mem_singleton.mp hb, decide_eq_true_eq]
      exact hin
  rw [hq]
  exact hrem.passes.trans (.threaded (fun _ _ _ _ => Removes.passes) hth)

def moveBack (old new : UserRange) (x : ℕ) : ℕ := old.start + (x - new.start)

/-- **A moved part** takes its pages along, and the set if it is the entry as a whole. -/
lemma Moves.passes {source : UserRange} (hs : source.start = old.start)
    (h : Moves zone source old new heap e heap' es) :
    Passes (moveBack old new) heap [e] (owned ([e].filter fun e => source.containsRange e.range))
      heap' es := by
  obtain ⟨overlap, m, hov, hm, rfl⟩ := h
  obtain ⟨-, h1, h2⟩ := intersection_eq_some hov
  obtain ⟨w, b, target, hw, hb, rfl, h3, h4⟩ := rebasedEntryForMove_ok hm
  obtain ⟨b', hb', hp⟩ := (cutAt_of_splitRewrite hw).target
  obtain rfl : b' = b := by rw [hb] at hb'; exact (some.inj hb').symm
  have hbs := hp.start_eq
  have hbt := hp.stop_eq
  have hol := overlap.start_add_len
  have hbw : b' ∈ w.intoEntries := by simp [intoEntries, hb]
  have hpass := passes_splitRewrite hw
  have hcount : target.pageCount = b'.range.pageCount := by
    have hlen : target.len = b'.range.len := by
      unfold len
      omega
    rw [pageCount, hlen, pageCount]
  refine ⟨hpass.grows, ?_, fun hk m hm => ?_, fun hk m hm x hx => ?_⟩
  · have hbudget : (if e.range = overlap then owned [e] else 0) ≤
        owned ([e].filter fun e => source.containsRange e.range) := by
      split_ifs with heq
      · have hin : source.containsRange e.range := by
          rw [heq]
          exact ⟨by omega, by omega⟩
        rw [filter_eq_self.mpr (by simpa using hin)]
      · exact Multiset.zero_le _
    calc owned [b'] ≤ owned w.intoEntries := owned_le (singleton_sublist.mpr hbw)
      _ ≤ _ := hpass.owned_le
      _ ≤ _ := by gcongr
  · rw [mem_singleton.mp hm]
    have hkb := hpass.keyed hk b' hbw
    constructor
    · intro s hs
      show _ ∧ (heap'.set s).Within target.pageCount _
      rw [hcount]
      exact hkb.fits s hs
    · intro s hs
      show _ + target.pageCount < _
      rw [hcount]
      exact hkb.keysFit s hs
  · rw [mem_singleton] at hm
    subst hm
    have hx1 : target.start ≤ x := hx.1
    have hx2 : x < target.stop := hx.2
    have hback : b'.range.containsAddr (moveBack old new x) := by
      unfold moveBack
      exact ⟨by omega, by omega⟩
    obtain ⟨e', he', h5, h6⟩ := hpass.frameAt hk b' hbw _ hback
    refine ⟨e', he', h5, Eq.trans ?_ h6⟩
    have hsame : x - target.start = moveBack old new x - b'.range.start := by
      unfold moveBack
      omega
    simp only [frameAt, withRangePreservingOwners, hsame]

end

end TxKernel.Vm
