import TxKernel.Vm.PrivateOwners
import TxKernel.Vm.RemapPages

/-!
Which private frames are found after a rewrite of the recipe tree: the frame of a page is the one
that was found for the page it continues, if it continues one.
-/

namespace TxKernel.Vm

open TxKernel.Spans List Option VmEntry RecipeTree UserRange Passes Coalescing

/-- The private frame that is found for an address through the entry that covers it. -/
def frames (heap : PrivateHeap) (L : List VmEntry) (a : ℕ) : Option PrivateFrameSnapshot :=
  (covering L a).bind fun e => e.frameAt heap a

/-- A rewrite whose page `x` continues the page `origin x`, if any. -/
structure Carries (heap : PrivateHeap) (L : List VmEntry) (heap' : PrivateHeap)
    (L' : List VmEntry) (origin : ℕ → Option ℕ) : Prop where
  owned_le : owned L' ≤ owned L + Multiset.Ico heap.sets.length heap'.sets.length
  fits : ∀ b ∈ L', b.Fits heap'
  frames_eq : ∀ x, frames heap' L' x = (origin x).bind (frames heap L)

section

variable {heap heap1 heap' : PrivateHeap} {L L' M : List VmEntry} {origin : ℕ → Option ℕ}
  {e b : VmEntry} {x : ℕ} {rs : List VmEntry}

lemma frames_of_mem (hL : Chained L) (he : e ∈ L) (hx : e.range.containsAddr x) :
    frames heap L x = e.frameAt heap x := by
  rw [frames, (covering_eq_some hL).mpr ⟨he, hx⟩, bind_some]

lemma frames_of_none (h : ∀ e ∈ L, ¬ e.range.containsAddr x) : frames heap L x = none := by
  rw [frames, covering_eq_none.mpr h, bind_none]

lemma frames_eq_of_mem (hL' : Chained L') {g : ℕ → Option PrivateFrameSnapshot}
    (hmem : ∀ b ∈ L', ∀ x, b.range.containsAddr x → b.frameAt heap' x = g x)
    (hnone : ∀ x, (∀ b ∈ L', ¬ b.range.containsAddr x) → g x = none) (x : ℕ) :
    frames heap' L' x = g x := by
  rcases hc : covering L' x with _ | b
  · have hno := covering_eq_none.mp hc
    rw [frames_of_none hno, hnone x hno]
  · obtain ⟨hb, hx⟩ := (covering_eq_some hL').mp hc
    rw [frames_of_mem hL' hb hx, hmem b hb x hx]

lemma Passes.frameAt_eq {back : ℕ → ℕ} {B : Multiset ℕ} (h : Passes back heap L B heap' rs)
    (hL : Chained L) (hk : ∀ e ∈ L, e.Keyed heap) (hb : b ∈ rs) (hx : b.range.containsAddr x) :
    b.frameAt heap' x = frames heap L (back x) := by
  obtain ⟨e, he, h1, h2⟩ := h.frameAt hk b hb x hx
  rw [h2, frames_of_mem hL he h1]

lemma frames_grows (hk : ∀ e ∈ L, e.Keyed heap) (hg : heap.Grows heap') :
    frames heap' L = frames heap L := by
  funext x
  rw [frames, frames]
  refine bind_congr fun e he => ?_
  exact (hk e (mem_of_find?_eq_some he)).fits.frameAt_grows hg x

lemma Passes.splice {s e : ℕ} (hL : Chained L) (hse : s < e)
    (h : Passes id heap (meeting L s e) (owned (meeting L s e)) heap' rs) :
    Passes id heap L (owned L) heap' (Spans.splice L s e rs) := by
  have hp := ((refl heap (leftOf L s)).append h).append
    (refl heap' (rightOf L e))
  rw [← owned_append, ← owned_append, ← hL.cut hse] at hp
  exact hp

/-! ### Unmapping, protecting, mapping over a range -/

variable {zone : ℕ → Bool} {range : UserRange} {p : Option Prot} {rs : List VmEntry}

lemma covered_of_threaded (hL : Chained L)
    (h : Threaded (Cuts zone range p) heap (meeting L range.start range.stop) heap' rs) (x : ℕ) :
    (∀ b ∈ splice L range.start range.stop rs, ¬ b.range.containsAddr x) ↔
      (p = none ∧ range.containsAddr x) ∨ ∀ e ∈ L, ¬ e.range.containsAddr x := by
  have hview := view_of_threaded hL h x
  have hiff : ∀ l : List VmEntry, (∀ b ∈ l, ¬ b.range.containsAddr x) ↔
      view meaningAt l x = none := fun l => by
    rw [view, map_eq_none_iff, covering_eq_none]
    exact Iff.rfl
  rw [hiff, hiff, hview]
  rcases view meaningAt L x with _ | m
  · simp
  rw [bind_some, cutMeaning]
  split_ifs with hx
  · rcases p with _ | prot
    · exact iff_of_true rfl (.inl ⟨rfl, hx⟩)
    · simp
  refine iff_of_false (by simp) ?_
  rintro (⟨-, hc⟩ | hc)
  · exact hx hc
  · cases hc

section

variable (hL : Chained L) (hk : ∀ e ∈ L, e.Keyed heap)
include hL hk

/-- **Unmapping** forgets the frames of the range, and **protecting** keeps all frames. -/
lemma carries_cut
    (h : Threaded (Cuts zone range p) heap (meeting L range.start range.stop) heap' rs) :
    Carries heap L heap' (splice L range.start range.stop rs)
      fun x => if p = none ∧ range.containsAddr x then none else some x := by
  have hp := (threaded (fun _ _ _ _ => Cuts.passes) h).splice hL range.start_lt_stop
  have hL' := hL.splice range.start_lt_stop.le (replacing_of_threaded hL h)
  have hcov := covered_of_threaded hL h
  refine ⟨hp.owned_le, fun b hb => (hp.keyed hk b hb).fits, frames_eq_of_mem hL' ?_ ?_⟩
  · intro b hb x hx
    have hout : ¬ (p = none ∧ range.containsAddr x) := fun hr => (hcov x).mpr (.inl hr) b hb hx
    rw [if_neg hout, bind_some]
    exact hp.frameAt_eq hL hk hb hx
  · intro x hx
    split_ifs with hr
    · rfl
    · exact frames_of_none (((hcov x).mp hx).resolve_left hr)

lemma carries_unmap
    (h : Threaded (Cuts zone range none) heap (meeting L range.start range.stop) heap' rs) :
    Carries heap L heap' (splice L range.start range.stop rs)
      fun x => if range.containsAddr x then none else some x := by
  simpa using carries_cut hL hk h

end

/-- A new entry on free pages: `q` comes with the heap `heap1` and finds nothing there. -/
structure Newcomer (heap heap1 : PrivateHeap) (q : VmEntry) : Prop where
  grows : heap.Grows heap1
  owned_le : owned [q] ≤ Multiset.Ico heap.sets.length heap1.sets.length
  fits : q.Fits heap1
  frameAt : ∀ x, q.frameAt heap1 x = none

variable {q : VmEntry}

/-- **Mapping over a range** forgets the frames of the range. -/
lemma carries_mapFixed (hL : Chained L) (hk : ∀ e ∈ L, e.Keyed heap) (hq : Newcomer heap heap1 q)
    (h : Threaded (Cuts zone q.range none) heap1 (meeting L q.range.start q.range.stop) heap' rs) :
    Carries heap L heap' (splice (splice L q.range.start q.range.stop rs)
        q.range.start q.range.stop [q])
      fun x => if q.range.containsAddr x then none else some x := by
  have hk1 : ∀ e ∈ L, e.Keyed heap1 := fun e he => (hk e he).grows hq.grows
  have hcut := carries_unmap hL hk1 h
  have hgrows := (threaded (fun _ _ _ _ => Cuts.passes) h).grows
  have hM := hL.splice q.range.start_lt_stop.le (replacing_of_threaded hL h)
  have hfree := free_of_threaded h
  have hperm := hM.perm_splice_one (b := q) hfree
  have hch := (hM.splice_one (b := q) hfree).2.2
  have hmem : ∀ b, b ∈ splice (splice L q.range.start q.range.stop rs) q.range.start q.range.stop
      [q] ↔ b ∈ splice L q.range.start q.range.stop rs ∨ b = q := fun b =>
    hperm.mem_iff.trans (by simp)
  refine ⟨?_, fun b hb => ?_, frames_eq_of_mem hch ?_ ?_⟩
  · calc owned _ = owned (splice L q.range.start q.range.stop rs) + owned [q] := by
          rw [← owned_append]; exact owned_perm hperm
      _ ≤ owned L + Multiset.Ico heap1.sets.length heap'.sets.length +
          Multiset.Ico heap.sets.length heap1.sets.length :=
        add_le_add hcut.owned_le hq.owned_le
      _ = owned L + Multiset.Ico heap.sets.length heap'.sets.length := by
        rw [add_assoc, add_comm (Multiset.Ico _ _), fresh_add hq.grows hgrows]
  · rcases (hmem b).mp hb with hb | rfl
    · exact hcut.fits b hb
    · exact hq.fits.grows hgrows
  · intro b hb x hx
    rcases (hmem b).mp hb with hb | rfl
    · rw [← frames_of_mem hM hb hx, hcut.frames_eq, frames_grows hk hq.grows]
    · rw [if_pos hx, hq.fits.frameAt_grows hgrows, hq.frameAt, bind_none]
  · intro x hx
    rw [← frames_grows hk hq.grows, ← hcut.frames_eq]
    exact frames_of_none fun b hb => hx b ((hmem b).mpr (.inl hb))

/-! ### Entries that reach further -/

lemma VmEntry.Fits.extend (h : e.Fits heap) (hpriv : b.owners.priv = e.owners.priv)
    (hstart : b.range.start = e.range.start) (hstop : e.range.stop ≤ b.range.stop) :
    b.Fits heap ∧ ∀ x, b.range.containsAddr x →
      b.frameAt heap x = if e.range.containsAddr x then e.frameAt heap x else none := by
  have hel := e.range.start_add_len
  have hbl := b.range.start_add_len
  refine ⟨fun s hs => ?_, fun x hx => ?_⟩
  · rw [hpriv] at hs
    refine ⟨(h s hs).1, (h s hs).2.mono ?_ le_rfl⟩
    exact Nat.div_le_div_right (by omega)
  split_ifs with hxe
  · rw [frameAt, frameAt, hpriv, hstart]
  rcases hs : e.owners.priv with _ | s
  · exact frameAt_of_none (hpriv.trans hs) x
  have hlt := b.range.stop_lt
  have hcount : e.range.pageCount ≤ (x - b.range.start) / userPageSize :=
    Nat.div_le_div_right (by omega)
  have hbound : (x - b.range.start) / userPageSize < 2 ^ 64 :=
    lt_of_le_of_lt (Nat.div_le_self _ _) (by omega)
  rw [frameAt_of_some (hpriv.trans hs), (h s hs).2.lookup_beyond hcount hbound, map_none]

/-! ### Moving -/

variable {source old new : UserRange} {moved grown kept : List VmEntry} {r : RecipeRewrite}

lemma growMoved_mem {β : Type} {f g : VmEntry → ℕ → β}
    (hparts : Parts source old new f g L moved) (his : RecipeTree.IsSource source old new)
    (hL : Chained L) (hmap : ∀ a, old.containsAddr a → (covering L a).isSome)
    (h : growMoved moved old new = .ok grown) :
    owned grown = owned moved ∧ ∀ m ∈ grown, ∃ m' ∈ moved, m.owners.priv = m'.owners.priv ∧
      m.range.start = m'.range.start ∧ m'.range.stop ≤ m.range.stop ∧
      ∀ x, m.range.containsAddr x → (m'.range.containsAddr x ↔ x - new.start < old.len) := by
  have hin := hparts.inside his.start_eq
  have hlen := his.len_eq
  rcases growMoved_cases h with
    ⟨hle, rfl⟩ | ⟨hgrow, init, last, expanded, rfl, rfl, h1, h2⟩
  · refine ⟨rfl, fun m hm => ⟨m, hm, rfl, rfl, le_rfl, fun x hx => iff_of_true hx ?_⟩⟩
    have h3 := hin m hm
    omega
  obtain ⟨-, last', -, hlast, -, hstop⟩ := exists_last hparts his hL hmap hgrow
  rw [getLast?_concat] at hlast
  cases hlast
  refine ⟨by rw [owned_append, owned_append]; rfl, fun m hm => ?_⟩
  rcases mem_append.mp hm with hm | hm
  · refine ⟨m, by simp [hm], rfl, rfl, le_rfl, fun x hx => iff_of_true hx ?_⟩
    have h3 := hin m (by simp [hm])
    omega
  rw [mem_singleton.mp hm]
  have h3 := hin last (by simp)
  refine ⟨last, by simp, rfl, h1, by show last.range.stop ≤ expanded.stop; omega,
    fun x hx => ?_⟩
  have h4 : expanded.start ≤ x := hx.1
  constructor
  · intro hc
    omega
  · intro hc
    exact ⟨by omega, by omega⟩

def movedFrom (old new : UserRange) (x : ℕ) : Option ℕ :=
  if new.containsAddr x then
    if x - new.start < old.len then some (moveBack old new x) else none
  else if old.containsAddr x then none else some x

lemma owned_moved (his : RecipeTree.IsSource source old new)
    (hmoved : Passes (moveBack old new) heap (meeting L source.start source.stop)
      (owned ((meeting L source.start source.stop).filter
        fun e => source.containsRange e.range)) heap1 moved)
    (hkept : Passes id heap1 L (owned (L.filter fun e => ¬ old.containsRange e.range)) heap' kept) :
    owned kept + owned moved ≤
      owned L + Multiset.Ico heap.sets.length heap'.sets.length := by
  have hsub : ∀ e : VmEntry, source.containsRange e.range → old.containsRange e.range := by
    intro e he
    have := his.start_eq
    have := his.len_eq
    have := source.start_add_len
    have := old.start_add_len
    exact ⟨by omega, by omega⟩
  have hbudget : owned (L.filter fun e => ¬ old.containsRange e.range) +
      owned ((meeting L source.start source.stop).filter fun e => source.containsRange e.range) ≤
        owned L := by
    calc _ ≤ owned (L.filter fun e => ¬ source.containsRange e.range) +
          owned (L.filter fun e => source.containsRange e.range) := by
          refine add_le_add (owned_le (monotone_filter_right _ fun e he => ?_))
            (owned_le (filter_sublist.filter _))
          rw [decide_eq_true_eq] at he ⊢
          exact fun hc => he (hsub e hc)
      _ = owned L := by
          rw [add_comm, ← owned_append]
          refine owned_perm ?_
          simpa only [decide_not] using
            filter_append_perm (fun e : VmEntry => decide (source.containsRange e.range)) L
  calc owned kept + owned moved ≤ _ := add_le_add hkept.owned_le hmoved.owned_le
    _ = owned (L.filter fun e => ¬ old.containsRange e.range) +
          owned ((meeting L source.start source.stop).filter
            fun e => source.containsRange e.range) +
        Multiset.Ico heap.sets.length heap'.sets.length := by
        rw [add_add_add_comm, add_comm (Multiset.Ico heap1.sets.length _),
          fresh_add hmoved.grows hkept.grows]
    _ ≤ _ := by gcongr

/-- **Moving** takes the frames of the source along and forgets those of the destination. -/
lemma carries_move (hL : Chained L) (hk : ∀ e ∈ L, e.Keyed heap)
    (hmap : ∀ a, old.containsAddr a → (covering L a).isSome)
    (h : RecipeTree.Moved zone L source old new heap heap1 moved grown kept r) :
    ∃ L', r.tree.Holds L' ∧ Carries heap L r.heap L' (movedFrom old new) := by
  have his := h.isSource
  have hparts := parts_of_moves his.start_eq h.moves
  obtain ⟨hgrown, hinside, hsame, -⟩ := growMoved_ok hparts his hL hmap
    (fun m range hr y _ => funext fun k => m.meaningAt_withRange (by omega)) h.grows
  obtain ⟨howned, hgrew⟩ := growMoved_mem hparts his hL hmap h.grows
  obtain ⟨hkchain, hkview⟩ := kept_avoids hL h.keeps
  obtain ⟨L', hL', hperm⟩ := holds_moved hL h.keeps hgrown hinside
  rw [← h.tree] at hL'
  have hmoved := threaded_filter _ (fun _ _ _ _ => Moves.passes his.start_eq) h.moves
  have hkept := threaded_filter _ (fun _ _ _ _ => Keeps.passes) h.keeps
  have hk' : ∀ e ∈ meeting L source.start source.stop, e.Keyed heap := fun e he =>
    hk e (mem_meeting.mp he).1
  have hk1 : ∀ e ∈ L, e.Keyed heap1 := fun e he => (hk e he).grows hmoved.grows
  have hmem : ∀ b, b ∈ L' ↔ b ∈ kept ∨ b ∈ grown := fun b => by
    rw [hperm.mem_iff, mem_append]
  have hextend : ∀ m ∈ grown, m.Fits r.heap ∧ ∀ x, m.range.containsAddr x →
      m.frameAt r.heap x =
        if x - new.start < old.len then frames heap L (moveBack old new x) else none := by
    intro m hm
    obtain ⟨m', hm', h1, h2, h3, h4⟩ := hgrew m hm
    have hfit := (hmoved.keyed hk' m' hm').fits
    obtain ⟨h5, h6⟩ := (hfit.grows hkept.grows).extend h1 h2 h3
    refine ⟨h5, fun x hx => ?_⟩
    rw [h6 x hx, hfit.frameAt_grows hkept.grows, ite_cond_congr (propext (h4 x hx))]
    refine ite_congr rfl (fun hlt => ?_) fun _ => rfl
    obtain ⟨e, he, h7, h8⟩ := hmoved.frameAt hk' m' hm' x ((h4 x hx).mpr hlt)
    rw [h8, frames_of_mem hL (mem_meeting.mp he).1 h7]
  refine ⟨L', hL', ?_, fun b hb => ?_, frames_eq_of_mem hL'.chained ?_ ?_⟩
  · rw [owned_perm hperm, owned_append, howned]
    exact owned_moved his hmoved hkept
  · rcases (hmem b).mp hb with hb | hb
    · exact (hkept.keyed hk1 b hb).fits
    · exact (hextend b hb).1
  · intro b hb x hx
    rcases (hmem b).mp hb with hb | hb
    · have hout : ∀ range : UserRange, range = old ∨ range = new → ¬ range.containsAddr x := by
        rintro range hr hc
        have hno := kept_covering hL h.keeps (x := x) (by
          rcases hr with rfl | rfl
          · exact .inl hc
          · exact .inr hc)
        exact covering_eq_none.mp hno b hb hx
      rw [movedFrom, if_neg (hout new (.inr rfl)), if_neg (hout old (.inl rfl)), bind_some,
        ← frames_grows hk hmoved.grows]
      exact hkept.frameAt_eq hL hk1 hb hx
    · have hin := hinside b hb
      have hnew : new.containsAddr x := ⟨by omega, by omega⟩
      rw [(hextend b hb).2 x hx, movedFrom, if_pos hnew]
      split_ifs <;> rfl
  intro x hx
  unfold movedFrom
  split_ifs with hnew hlt hold
  · -- every page of the destination has an entry
    obtain ⟨i, rfl⟩ := Nat.exists_eq_add_of_le hnew.1
    have hi : i < new.len := by
      have := new.start_add_len
      omega
    have hcov := hmap (old.start + i) ⟨by omega, by
      have := old.start_add_len
      omega⟩
    have hview := hsame i (by omega) hi
    obtain ⟨e, he⟩ := isSome_iff_exists.mp hcov
    rw [view, view, he, map_some, map_eq_some_iff] at hview
    obtain ⟨m, hm, -⟩ := hview
    obtain ⟨hm, hmx⟩ := (covering_eq_some hgrown).mp hm
    exact absurd hmx (hx m ((hmem m).mpr (.inr hm)))
  · rfl
  · rfl
  · refine frames_of_none fun e he hex => ?_
    have hview := hkview x
    rw [view, view, (covering_eq_some hL).mpr ⟨he, hex⟩, map_some, bind_some,
      cutMeaning, if_neg hold, bind_some, cutMeaning, if_neg hnew,
      map_eq_some_iff] at hview
    obtain ⟨b, hb, -⟩ := hview
    obtain ⟨hb, hbx⟩ := (covering_eq_some hkchain).mp hb
    exact hx b ((hmem b).mpr (.inl hb)) hbx

/-! ### One entry in place of several -/

variable {t : RecipeTree} {rest eaten : List VmEntry} {j : VmEntry}

lemma free_of_covers {q : UserRange} (hL : Chained L) (hperm : (eaten ++ rest).Perm L)
    (hq : ∀ e ∈ L, ¬ e.range.overlaps q)
    (hcov : ∀ x, j.range.containsAddr x ↔ (∃ e ∈ eaten, e.range.containsAddr x) ∨
      q.containsAddr x) :
    ∀ a ∈ rest, ¬ a.range.overlaps j.range := by
  have happ := (hperm.pairwise_iff fun {a b} hab hba => hab ⟨hba.2, hba.1⟩).mpr
    (pairwise_not_overlaps hL)
  intro a ha hov
  have h1 := a.range.start_lt_stop
  have h2 := j.range.start_lt_stop
  have hx : j.range.containsAddr (max a.range.start j.range.start) := ⟨by omega, by omega⟩
  rcases (hcov _).mp hx with ⟨e, he, hex⟩ | hqx
  · exact (pairwise_append.mp happ).2.2 e he a ha ⟨by omega, by omega⟩
  · exact hq a (hperm.mem_iff.mp (mem_append_right eaten ha)) ⟨by omega, by omega⟩

lemma carries_insertEntry {q : UserRange} (hL : Chained L) (hk : ∀ e ∈ L, e.Keyed heap)
    (hrest : t.Holds rest) (hperm : (eaten ++ rest).Perm L) (hgrows : heap.Grows heap1)
    (hq : ∀ e ∈ L, ¬ e.range.overlaps q)
    (hcov : ∀ x, j.range.containsAddr x ↔ (∃ e ∈ eaten, e.range.containsAddr x) ∨ q.containsAddr x)
    (howned : owned [j] ≤ owned eaten + Multiset.Ico heap.sets.length heap1.sets.length)
    (hfit : j.Fits heap1)
    (hold : ∀ e ∈ eaten, ∀ x, e.range.containsAddr x → j.frameAt heap1 x = e.frameAt heap x)
    (hnew : ∀ x, q.containsAddr x → j.frameAt heap1 x = none) :
    ∃ L', (t.insertEntry j).Holds L' ∧
      Carries heap L heap1 L' fun x => if q.containsAddr x then none else some x := by
  have hmemL : ∀ e, e ∈ L ↔ e ∈ eaten ∨ e ∈ rest := fun e => by
    rw [← hperm.mem_iff, mem_append]
  have hout : ∀ e ∈ L, ∀ x, e.range.containsAddr x → ¬ q.containsAddr x := fun e he x hx hqx =>
    hq e he ⟨by omega, by omega⟩
  have hfree := free_of_covers hL hperm hq hcov
  have hins := hrest.insertEntry hfree
  have hperm' := hrest.chained.perm_splice_one (b := j) hfree
  have hmem : ∀ b, b ∈ splice rest j.range.start j.range.stop [j] ↔ b ∈ rest ∨ b = j := fun b =>
    hperm'.mem_iff.trans (by simp)
  refine ⟨_, hins, ?_, fun b hb => ?_, frames_eq_of_mem hins.chained ?_ ?_⟩
  · calc owned _ = owned rest + owned [j] := by
          rw [← owned_append]; exact owned_perm hperm'
      _ ≤ owned rest + (owned eaten + Multiset.Ico heap.sets.length heap1.sets.length) := by
          gcongr
      _ = owned L + Multiset.Ico heap.sets.length heap1.sets.length := by
          rw [← add_assoc, add_comm (owned rest), ← owned_append, owned_perm hperm]
  · rcases (hmem b).mp hb with hb | rfl
    · exact (hk b ((hmemL b).mpr (.inr hb))).fits.grows hgrows
    · exact hfit
  · intro b hb x hx
    rcases (hmem b).mp hb with hb | rfl
    · have hbL := (hmemL b).mpr (.inr hb)
      rw [if_neg (hout b hbL x hx), bind_some, frames_of_mem hL hbL hx,
        (hk b hbL).fits.frameAt_grows hgrows]
    rcases (hcov x).mp hx with ⟨e, he, hex⟩ | hqx
    · have heL := (hmemL e).mpr (.inl he)
      rw [if_neg (hout e heL x hex), bind_some, frames_of_mem hL heL hex, hold e he x hex]
    · rw [if_pos hqx, bind_none, hnew x hqx]
  · intro x hx
    split_ifs with hqx
    · rfl
    refine frames_of_none fun e he hex => ?_
    rcases (hmemL e).mp he with he | he
    · exact hx j ((hmem j).mpr (.inr rfl)) ((hcov x).mpr (.inl ⟨e, he, hex⟩))
    · exact hx e ((hmem e).mpr (.inl he)) hex

lemma movedFrom_of_start (hstart : old.start = new.start) (x : ℕ) :
    movedFrom old new x = if old.containsAddr x ↔ new.containsAddr x then some x else none := by
  have hol := old.start_add_len
  unfold movedFrom moveBack
  by_cases hn : new.containsAddr x <;> by_cases ho : old.containsAddr x
  · have hx : old.start + (x - new.start) = x := by omega
    rw [if_pos hn, if_pos (by omega), if_pos (iff_of_true ho hn), hx]
  · rw [if_pos hn, if_neg (by omega), if_neg fun hc => ho (hc.mpr hn)]
  · rw [if_neg hn, if_pos ho, if_neg fun hc => hn (hc.mp ho)]
  · rw [if_neg hn, if_neg ho, if_pos (iff_of_false ho hn)]

lemma movedFrom_eq {q : UserRange} (hstart : old.start = new.start)
    (hq : ∀ x, q.containsAddr x ↔ ¬ (old.containsAddr x ↔ new.containsAddr x)) :
    movedFrom old new = fun x => if q.containsAddr x then none else some x := by
  funext x
  rw [movedFrom_of_start hstart]
  by_cases hx : q.containsAddr x
  · rw [if_pos hx, if_neg ((hq x).mp hx)]
  · rw [if_neg hx, if_pos (not_not.mp fun hc => hx ((hq x).mpr hc))]

/-- **Resizing in place** forgets the frames of the pages that go and has none for those that
come. -/
lemma carries_inPlace (h : t.Holds L) (hk : ∀ e ∈ L, e.Keyed heap)
    (hr : t.rewriteRemapInPlace zone heap old new = .ok r) :
    ∃ L', r.tree.Holds L' ∧ Carries heap L r.heap L' (movedFrom old new) := by
  have hol := old.start_add_len
  have hnl := new.start_add_len
  unfold rewriteRemapInPlace at hr
  split_ifs at hr with hstart hmap heq hshrink
  · -- the same range
    cases hr
    refine ⟨L, h, by simp, fun b hb => (hk b hb).fits, fun x => ?_⟩
    rw [movedFrom_of_start (not_not.mp hstart), if_pos, bind_some]
    omega
  · -- the tail goes
    split at hr
    · cases hr
    rename_i shrink hshr
    obtain ⟨h1, h2⟩ := ends_of_newAligned hshr
    obtain ⟨rs, hth, hholds⟩ := h.rewriteUnmap_ok hr
    rw [movedFrom_eq (q := shrink) (not_not.mp hstart) fun x => by
      omega]
    exact ⟨_, hholds, carries_unmap h.chained hk hth⟩
  -- the one entry of the range reaches further
  split at hr
  · cases hr
  rename_i grow hgrow
  obtain ⟨h1, h2⟩ := ends_of_newAligned hgrow
  obtain ⟨_, hfree, hr⟩ := bind_ok hr
  rw [h.validateInsertFree_eq] at hfree
  split_ifs at hfree with hfree'
  split at hr
  · cases hr
  rename_i e he
  obtain ⟨hlook, hrange⟩ := filter_eq_some_iff.mp he
  rw [decide_eq_true_eq] at hrange
  obtain ⟨j, hj, hr⟩ := bind_ok hr
  unfold entryWithRange at hj
  split_ifs at hj
  cases hj
  cases hr
  rw [h.lookup_eq] at hlook
  obtain ⟨heL, -⟩ := (covering_eq_some h.chained).mp hlook
  obtain ⟨hfit, hframe⟩ := (hk e heL).fits.extend (b := e.withRangePreservingOwners new) rfl
    (by rw [hrange]; show new.start = old.start; omega)
    (by rw [hrange]; show old.stop ≤ new.stop; omega)
  have hperm : ([e] ++ L.filter fun a => a.range.start ≠ old.start).Perm L := by
    have := h.chained.perm_cons_filter heL
    rwa [lo_eq, hrange] at this
  rw [hrange] at hframe
  rw [movedFrom_eq (q := grow) (not_not.mp hstart) fun x => by
    omega]
  refine carries_insertEntry h.chained hk (h.removeExact old.start).1 hperm (.refl heap) hfree'
    (fun x => ?_) (by simp [owned_singleton, withRangePreservingOwners]) hfit ?_ ?_
  · show new.containsAddr x ↔ _
    simp only [mem_singleton, exists_eq_left, hrange, containsAddr]
    omega
  · intro b hb x hx
    rw [mem_singleton] at hb
    subst hb
    rw [hrange] at hx
    rw [hframe x ⟨by show new.start ≤ x; omega, by
      show x < new.stop; omega⟩, if_pos hx]
  · intro x hx
    rw [hframe x ⟨by show new.start ≤ x; omega, by show x < new.stop; omega⟩, if_neg]
    intro hc
    omega

end

/-! ### Mapping on free pages -/

/-- The entry `j` stands for all pages of the entries `es`, and finds what they find. -/
structure Joined (heap : PrivateHeap) (es : List VmEntry) (j : VmEntry) : Prop where
  covers : ∀ x, j.range.containsAddr x ↔ ∃ e ∈ es, e.range.containsAddr x
  owned_le : owned [j] ≤ owned es
  fits : j.Fits heap
  frameAt : ∀ e ∈ es, ∀ x, e.range.containsAddr x → j.frameAt heap x = e.frameAt heap x

section

variable {heap heap1 : PrivateHeap} {left right j n : VmEntry} {es L : List VmEntry}
  {t : RecipeTree}

lemma Joined.perm {es' : List VmEntry} (h : Joined heap es j) (hp : es.Perm es') :
    Joined heap es' j :=
  ⟨fun x => (h.covers x).trans (by simp only [hp.mem_iff]), owned_perm hp ▸ h.owned_le, h.fits,
    fun e he => h.frameAt e (hp.mem_iff.mpr he)⟩

lemma Joined.cons {m : VmEntry} (h : Joined heap es m) (hj : Joined heap [n, m] j) :
    Joined heap (n :: es) j := by
  refine ⟨fun x => ?_, ?_, hj.fits, fun e he x hx => ?_⟩
  · rw [hj.covers]
    simp only [mem_cons, not_mem_nil, or_false, exists_eq_or_imp, exists_eq_left, h.covers]
  · calc owned [j] ≤ owned [n] + owned [m] := by rw [← owned_append]; exact hj.owned_le
      _ ≤ owned [n] + owned es := by gcongr; exact h.owned_le
      _ = owned (n :: es) := (owned_cons n es).symm
  · rcases mem_cons.mp he with rfl | he
    · exact hj.frameAt e (by simp) x hx
    · rw [hj.frameAt m (by simp) x ((h.covers x).mpr ⟨e, he, hx⟩), h.frameAt e he x hx]

lemma tryMergeAdjacentEntries_ok (h : tryMergeAdjacentEntries heap left right = .ok (some j)) :
    left.range.stop = right.range.start ∧ j.range.start = left.range.start ∧
      j.range.stop = right.range.stop ∧
      mergedPrivate heap left.owners.priv right.owners.priv = some j.owners.priv := by
  unfold tryMergeAdjacentEntries at h
  split_ifs at h with hno
  · cases h
  split at h
  · cases h
  rename_i priv hpriv
  split at h
  · cases h
  rename_i range hrange
  obtain ⟨h1, h2⟩ := ends_of_newAligned hrange
  have hlt := left.range.start_lt_stop
  have hlt' := right.range.start_lt_stop
  have hadj : left.range.stop = right.range.start := by
    by_contra hc
    exact hno (.inl hc)
  cases h
  have hnew : ∀ b, (new range left.prot left.flags b).range = range := fun b => by
    cases b <;> rfl
  refine ⟨hadj, ?_, ?_, hpriv⟩
  · show (new range left.prot left.flags left.asVmBacking).range.start = _
    rw [hnew, h1]
  show (new range left.prot left.flags left.asVmBacking).range.stop = _
  rw [hnew, h2]
  omega

/-- **Merging two neighbours**: the set of one is kept and the other has no pages. -/
lemma joined_of_tryMerge (hl : left.Fits heap) (hr : right.Fits heap)
    (h : tryMergeAdjacentEntries heap left right = .ok (some j)) :
    Joined heap [left, right] j := by
  obtain ⟨hadj, hstart, hstop, hpriv⟩ := tryMergeAdjacentEntries_ok h
  have hlt := left.range.start_lt_stop
  have hlt' := right.range.start_lt_stop
  have hcov : ∀ x, j.range.containsAddr x ↔ left.range.containsAddr x ∨
    right.range.containsAddr x :=
    fun x => by
      omega
  -- either the left set is kept and the right entry finds nothing, or neither finds anything
  have hcase : (j.owners.priv = left.owners.priv ∧ ∀ x, right.frameAt heap x = none) ∨
      (left.owners.priv = none ∧ j.owners.priv = right.owners.priv ∧
        ∀ s, right.owners.priv = some s → heap.isEmpty s = true) := by
    have hempty : ∀ {s}, right.owners.priv = some s → heap.isEmpty s = true →
        ∀ s', right.owners.priv = some s' → heap.isEmpty s' = true := fun h1 h2 s' h3 => by
      rw [h1] at h3
      exact some.inj h3 ▸ h2
    rcases hlp : left.owners.priv with _ | l <;> rcases hrp : right.owners.priv with _ | s <;>
      rw [hlp, hrp, mergedPrivate] at hpriv
    · exact .inl ⟨(some.inj hpriv).symm, frameAt_of_none hrp⟩
    · split_ifs at hpriv with he
      exact .inr ⟨rfl, (some.inj hpriv).symm, hrp ▸ hempty hrp he⟩
    · exact .inl ⟨(some.inj hpriv).symm, frameAt_of_none hrp⟩
    · split_ifs at hpriv with he
      exact .inl ⟨(some.inj hpriv).symm, hr.frameAt_of_isEmpty (hempty hrp he)⟩
  have hpair : ∀ P : VmEntry → Prop, (∀ e ∈ [left, right], P e) ↔ P left ∧ P right := by simp
  have hcov' : ∀ x, j.range.containsAddr x ↔ ∃ e ∈ [left, right], e.range.containsAddr x := fun x =>
    (hcov x).trans (by simp)
  rcases hcase with ⟨hp, hnone⟩ | ⟨hlp, hp, hempty⟩
  · obtain ⟨hfit, hframe⟩ := hl.extend hp hstart (by omega)
    refine ⟨hcov', ?_, hfit, (hpair _).mpr ⟨fun x hx => ?_, fun x hx => ?_⟩⟩
    · rw [owned_singleton, hp, ← owned_singleton]
      exact owned_le (by simp)
    · rw [hframe x ((hcov x).mpr (.inl hx)), if_pos hx]
    rw [hframe x ((hcov x).mpr (.inr hx)), hnone, if_neg]
    intro hc
    omega
  have hfit : j.Fits heap := fun s hs => by
    rw [hp] at hs
    obtain ⟨h1, h2⟩ := hr s hs
    have hz := hempty s hs
    rw [PrivateHeap.isEmpty, decide_eq_true_eq] at hz
    exact ⟨h1, h2.of_empty hz⟩
  have hjnone := hfit.frameAt_of_isEmpty fun s hs => hempty s (hp ▸ hs)
  refine ⟨hcov', ?_, hfit, (hpair _).mpr ⟨fun x hx => ?_, fun x hx => ?_⟩⟩
  · rw [owned_singleton, hp, ← owned_singleton]
    exact owned_le (by simp)
  · rw [hjnone, frameAt_of_none hlp]
  · rw [hjnone, hr.frameAt_of_isEmpty hempty]

def Swallowed (heap : PrivateHeap) (L : List VmEntry) (q : VmEntry) (st : RecipeTree.Coalescing) :
    Prop :=
  ∃ eaten rest, st.tree.Holds rest ∧ (eaten ++ rest).Perm L ∧ Joined heap (eaten ++ [q]) st.merged

lemma exists_tryMerge (heap : PrivateHeap) (left right : VmEntry) :
    ∃ o, tryMergeAdjacentEntries heap left right = .ok o := by
  unfold tryMergeAdjacentEntries
  split_ifs with hno
  · exact ⟨_, rfl⟩
  rcases mergedPrivate heap left.owners.priv right.owners.priv with _ | priv
  · exact ⟨_, rfl⟩
  have hl := left.range.start_lt_stop
  have hr := right.range.start_lt_stop
  have hlen : right.range.stop - left.range.start = left.range.len + right.range.len := by
    unfold len
    omega
  obtain ⟨range, hrange, -⟩ := newAligned_eq_ok left.range.start
    (right.range.stop - left.range.start) (by omega) left.range.start_aligned
    (by rw [hlen, Nat.add_mod, left.range.len_aligned, right.range.len_aligned]; rfl)
    (by have := right.range.stop_lt; omega)
  simp only [hrange]
  exact ⟨_, rfl⟩

lemma exists_swallow {P : Coalescing → Prop} {st : Coalescing}
    {join : VmEntry → Except VmMapError (Option VmEntry)} (o : Option VmEntry)
    (hjoin : ∀ n, ∃ r, join n = .ok r)
    (hst : (∀ n j, o = some n → join n ≠ .ok (some j)) → P st)
    (hstep : ∀ n j removed size, o = some n → join n = .ok (some j) →
      P ⟨(st.tree.removeExact n.range.start).1, j, removed, size⟩) :
    ∃ st', st.swallow join o = .ok st' ∧ P st' := by
  rcases o with _ | n
  · exact ⟨st, rfl, hst (by simp)⟩
  obtain ⟨_ | j, hj⟩ := hjoin n
  · exact ⟨st, by simp [swallow, hj], hst fun _ _ ho => by cases ho; simp [hj]⟩
  · exact ⟨_, by rw [swallow, hj], hstep n j _ _ rfl hj⟩

/-- The neighbours `es` are out of the tree, and `P es j` holds of the entry `j` on its way in. -/
def Merging (P : List VmEntry → VmEntry → Prop) (L : List VmEntry) (st : Coalescing) : Prop :=
  ∃ es rest, st.tree.Holds rest ∧ (es ++ rest).Perm L ∧ P es st.merged

/-- The new entry goes in, merged with one neighbour after the other: `P` holds after the left one,
and `Q` after both. -/
lemma exists_insertCoalescing (heap : PrivateHeap) (h : t.Holds L)
    (hfree : ∀ e ∈ L, ¬ e.range.overlaps q.range) {P Q : List VmEntry → VmEntry → Prop}
    (hnil : (∀ n ∈ L, ∀ j, tryMergeAdjacentEntries heap n q ≠ .ok (some j)) → P [] q)
    (hleft : ∀ n ∈ L, ∀ j, tryMergeAdjacentEntries heap n q = .ok (some j) → P [n] j)
    (hstay : ∀ es m, P es m →
      (∀ n ∈ L, ∀ j, tryMergeAdjacentEntries heap m n ≠ .ok (some j)) → Q es m)
    (hright : ∀ es m, P es m → ∀ n ∈ L, ∀ j, tryMergeAdjacentEntries heap m n = .ok (some j) →
      Q (n :: es) j)
    (hcov : ∀ es m, P es m → ∀ n ∈ es, m.range.containsAddr n.range.start) :
    ∃ st delta, t.insertCoalescingAdjacent heap q = .ok (st.tree.insertEntry st.merged, delta) ∧
      Merging Q L st := by
  have hpred : t.predecessorRef q.range.start = lastUpTo L q.range.start :=
    h.index.predecessorRef_eq _
  have hstart : (∀ n j, t.predecessorRef q.range.start = some n →
      tryMergeAdjacentEntries heap n q ≠ .ok (some j)) → Merging P L ⟨t, q, 0, 0⟩ := fun hno => by
    refine ⟨[], L, h, .refl L, hnil fun n hn j hj => hno n j ?_ hj⟩
    have hadj := (tryMergeAdjacentEntries_ok hj).1
    rw [hpred, ← hadj]
    refine h.chained.lastUpTo_eq_some hn fun b hb hc => hfree b hb ?_
    rw [lo_eq, hi_eq, hadj] at hc
    exact ⟨by have := q.range.start_lt_stop; omega, by have := b.range.start_lt_stop; omega⟩
  obtain ⟨st1, h1, hst1⟩ := exists_swallow (t.predecessorRef q.range.start)
    (fun n => exists_tryMerge heap n q) hstart fun n j _ _ hn hj => by
      rw [hpred] at hn
      have hnL : n ∈ L := (mem_filter.mp (mem_of_getLast? hn)).1
      exact ⟨[n], _, (h.removeExact _).1, h.chained.perm_cons_filter hnL, hleft n hnL j hj⟩
  have hsucc : t.successorRef st1.merged.range.stop = firstFrom L st1.merged.range.stop :=
    h.index.successorRef_eq _
  have hend : (∀ n j, t.successorRef st1.merged.range.stop = some n →
      tryMergeAdjacentEntries heap st1.merged n ≠ .ok (some j)) → Merging Q L st1 := fun hno => by
    obtain ⟨es, rest, hholds, hperm, hP⟩ := hst1
    refine ⟨es, rest, hholds, hperm, hstay es _ hP fun n hn j hj => hno n j ?_ hj⟩
    rw [hsucc, (tryMergeAdjacentEntries_ok hj).1]
    exact h.chained.firstFrom_eq_some hn
  obtain ⟨st2, h2, hst2⟩ := exists_swallow (t.successorRef st1.merged.range.stop)
    (fun n => exists_tryMerge heap st1.merged n) hend fun n j _ _ hn hj => by
      rw [hsucc] at hn
      have hge : st1.merged.range.stop ≤ n.range.start := by simpa using find?_some hn
      have hnL := mem_of_find?_eq_some hn
      obtain ⟨eaten, rest, hholds, hperm, hP⟩ := hst1
      have hrest : n ∈ rest := (mem_append.mp (hperm.mem_iff.mpr hnL)).resolve_left fun hn => by
        have := hcov _ _ hP n hn
        omega
      exact ⟨n :: eaten, _, (hholds.removeExact _).1, (perm_middle.symm.trans
        ((hholds.chained.perm_cons_filter hrest).append_left eaten)).trans hperm,
        hright eaten _ hP n hnL j hj⟩
  exact ⟨st2, _, by simp only [insertCoalescingAdjacent, bind, Except.bind, h1, h2]; rfl, hst2⟩

/-- **Mapping on free pages** keeps all frames and has none for the new pages, whichever of the
neighbours are merged with the new entry. -/
lemma carries_mapFree {r : RecipeRewrite} (h : t.Holds L) (hk : ∀ e ∈ L, e.Keyed heap)
    (hq : Newcomer heap heap1 q) (hr : RecipeIndex.rewriteMapFree q heap1 t = .ok r) :
    r.heap = heap1 ∧ ∃ L', r.tree.Holds L' ∧
      Carries heap L heap1 L' fun x => if q.range.containsAddr x then none else some x := by
  obtain ⟨_, hfree, hr⟩ := bind_ok hr
  rw [h.validateInsertFree_eq] at hfree
  split_ifs at hfree with hfree'
  obtain ⟨⟨tree, delta⟩, hins, hr⟩ := bind_ok hr
  cases hr
  refine ⟨rfl, ?_⟩
  have hfits : ∀ e ∈ L, e.Fits heap1 := fun e he => (hk e he).fits.grows hq.grows
  obtain ⟨st2, _, hins', hsw⟩ : ∃ st delta, _ ∧ Swallowed heap1 L q st :=
    exists_insertCoalescing heap1 h hfree' (P := fun es => Joined heap1 (es ++ [q]))
      (fun _ => ⟨by simp, le_rfl, hq.fits, by simp⟩)
      (fun n hn j hj => joined_of_tryMerge (hfits n hn) hq.fits hj) (fun es m hm _ => hm)
      (fun es m hm n hn j hj =>
        hm.cons ((joined_of_tryMerge hm.fits (hfits n hn) hj).perm (List.Perm.swap ..)))
      fun es m hm n hn => (hm.covers _).mpr ⟨n, by simp [hn], le_rfl, n.range.start_lt_stop⟩
  cases hins.symm.trans hins'
  obtain ⟨eaten, rest, hholds, hperm, hjoined⟩ := hsw
  refine carries_insertEntry h.chained hk hholds hperm hq.grows hfree' (fun x => ?_) ?_ hjoined.fits
    (fun e he x hx => ?_) fun x hx => ?_
  · rw [hjoined.covers]
    simp
  · calc owned [st2.merged] ≤ owned eaten + owned [q] := by
          rw [← owned_append]; exact hjoined.owned_le
      _ ≤ _ := by gcongr; exact hq.owned_le
  · have heL := hperm.mem_iff.mp (mem_append_left rest he)
    rw [hjoined.frameAt e (by simp [he]) x hx, (hk e heL).fits.frameAt_grows hq.grows]
  · rw [hjoined.frameAt q (by simp) x hx, hq.frameAt]

end

end TxKernel.Vm
