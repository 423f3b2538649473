import TxKernel.Vm.BPlus.Simulation

/-!
Replacing a range in a B+ index, where the descent ends in a leaf. If it first meets an internal
node that lies after the range, the replacements are put beside that node: `GapBeforeInternal` names
this case, which is excluded here.
-/

namespace TxKernel.Vm.BPlusNode

open TxKernel.Spans List LeafScan Edited RemovedRecipeRecorder UserRange

/-- The entries of an internal node come after the range, and all entries in front of the node come
before it. -/
inductive GapBeforeInternal (range : UserRange) : BPlusNode → Prop
  | here {seps : List ℕ} {cs : List BPlusNode} {len vmSize height : ℕ}
      (after : ∀ e ∈ valuesAll cs, range.stop ≤ e.range.start) :
      GapBeforeInternal range (.internal seps cs len vmSize height)
  | child {seps : List ℕ} {A : List BPlusNode} {c : BPlusNode} {B : List BPlusNode}
      {len vmSize height : ℕ} (before : ∀ e ∈ valuesAll A, e.range.stop ≤ range.start)
      (gap : GapBeforeInternal range c) :
      GapBeforeInternal range (.internal seps (A ++ c :: B) len vmSize height)

/-! ### The recorder -/

namespace RemovedRecipeRecorder

def observeAll (r : RemovedRecipeRecorder) (es : List VmEntry) : RemovedRecipeRecorder :=
  es.foldl observe r

section

variable (r : RemovedRecipeRecorder)

@[simp] lemma observeAll_nil : r.observeAll [] = r := rfl

@[simp] lemma observeAll_cons (e : VmEntry) (es : List VmEntry) :
    r.observeAll (e :: es) = (r.observe e).observeAll es := rfl

@[simp] lemma observeAll_append (es fs : List VmEntry) :
    r.observeAll (es ++ fs) = (r.observeAll es).observeAll fs := by simp [observeAll]

end

lemma observeAll_collecting (es : List VmEntry) : (collecting.observeAll es).entries = some es := by
  have hgen : ∀ (r : RemovedRecipeRecorder) (l : List VmEntry), r.entries = some l →
      (r.observeAll es).entries = some (l ++ es) := by
    induction es with
    | nil => simp
    | cons e es ih =>
      intro r l hr
      rw [observeAll_cons, ih (r.observe e) (l ++ [e]) (by simp [observe, hr])]
      simp
  exact hgen collecting [] rfl

lemma observeAll_summary (r : RemovedRecipeRecorder) (es : List VmEntry) :
    (r.observeAll es).summary = es.foldl RemovedRecipeSummary.observe r.summary := by
  induction es generalizing r with
  | nil => rfl
  | cons e es ih => rw [observeAll_cons, ih]; rfl

end RemovedRecipeRecorder

/-! ### One leaf -/

section Leaf

variable {range : UserRange} {V rs out : List VmEntry}

/-- The replacements of the cursor go between what lies before and what lies after the range. -/
structure FitsAt (range : UserRange) (V rs : List VmEntry) : Prop where
  left : ∀ e ∈ V, e.range.stop ≤ range.start → ∀ r ∈ rs, e.range.stop ≤ r.range.start
  right : ∀ e ∈ V, range.stop ≤ e.range.start → ∀ r ∈ rs, r.range.stop ≤ e.range.start

lemma FitsAt.sub {W : List VmEntry} (h : FitsAt range W rs) (hs : ∀ e ∈ V, e ∈ W) :
    FitsAt range V rs := ⟨fun e he => h.left e (hs e he), fun e he => h.right e (hs e he)⟩

lemma FitsAt.nil (V : List VmEntry) : FitsAt range V [] := ⟨by simp, by simp⟩

lemma step_copied {s : LeafScan} {e : VmEntry} (hov : ¬ e.range.overlaps range)
    (hr : ∀ r ∈ s.cursor.entries, e.range.start ≤ r.range.start) :
    s.step range e = ⟨s.cursor, s.removed, s.out ++ [e], s.changed⟩ := by
  have hin : (!s.cursor.inserted &&
      s.cursor.entries.head?.any fun r => r.range.start < e.range.start) = false := by
    rcases hc : s.cursor.entries with _ | ⟨r, rs⟩
    · simp
    have := hr r (by simp [hc])
    simp only [head?_cons, Option.any_some, Bool.and_eq_false_imp, decide_eq_false_iff_not]
    intro _
    omega
  simp only [step, hin, Bool.false_eq_true, if_false, if_neg hov]

lemma scan_copied (cur : ReplacementCursor) (rem : RemovedRecipeRecorder) (out : List VmEntry)
    (ch : Bool) (hV : ∀ e ∈ V, ¬ e.range.overlaps range)
    (hr : ∀ e ∈ V, ∀ r ∈ cur.entries, e.range.start ≤ r.range.start) :
    V.foldl (step range) ⟨cur, rem, out, ch⟩ = ⟨cur, rem, out ++ V, ch⟩ := by
  induction V generalizing out with
  | nil => simp
  | cons e V ih =>
    rw [foldl_cons, step_copied (hV e (by simp)) (hr e (by simp)),
      ih _ (fun a ha => hV a (by simp [ha])) fun a ha => hr a (by simp [ha])]
    simp

/-- Where the replacements stand after part of a scan: still pending, or written out. -/
def Pending (rs out : List VmEntry) (s : LeafScan) : Prop :=
  (s.cursor = ⟨rs, false⟩ ∧ s.out = out) ∨ (s.cursor = ⟨[], true⟩ ∧ s.out = out ++ rs)

lemma scan_meeting (s : LeafScan) (hV : ∀ e ∈ V, e.range.overlaps range) (hp : Pending rs out s) :
    Pending rs out (V.foldl (step range) s) ∧
      (V.foldl (step range) s).removed = s.removed.observeAll V ∧
      (V.foldl (step range) s).changed = (s.changed || !V.isEmpty) := by
  induction V generalizing s with
  | nil => simp [hp]
  | cons e V ih =>
    have hstep : Pending rs out (s.step range e) ∧
        (s.step range e).removed = s.removed.observe e ∧ (s.step range e).changed = true := by
      simp only [step, if_pos (hV e (by simp))]
      rcases hp with ⟨h1, h2⟩ | ⟨h1, h2⟩
      · split_ifs
        · exact ⟨.inr ⟨rfl, by simp [h1, h2]⟩, rfl, trivial⟩
        · exact ⟨.inl ⟨h1, h2⟩, rfl, trivial⟩
      · simp [h1, h2, Pending]
    obtain ⟨h1, h2, h3⟩ := ih (s.step range e) (fun a ha => hV a (by simp [ha])) hstep.1
    refine ⟨h1, ?_, ?_⟩
    · rw [foldl_cons, h2, hstep.2.1]; rfl
    · rw [foldl_cons, h3, hstep.2.2]; simp

lemma scan_right (s : LeafScan) (hV : ∀ e ∈ V, range.stop ≤ e.range.start)
    (hr : ∀ e ∈ V, ∀ r ∈ rs, r.range.stop ≤ e.range.start) (hp : Pending rs out s) :
    let s' := V.foldl (step range) s
    s'.removed = s.removed ∧ s'.changed = s.changed ∧
      ((s'.cursor = ⟨rs, false⟩ ∧ s'.out ++ rs = out ++ rs ++ V) ∨
        (s'.cursor = ⟨[], true⟩ ∧ s'.out = out ++ rs ++ V)) := by
  have hov : ∀ e ∈ V, ¬ e.range.overlaps range := fun e he => by
    have := hV e he
    simp only [overlaps]
    omega
  obtain ⟨cur, rem, o, ch⟩ := s
  rcases hp with ⟨h1, h2⟩ | ⟨h1, h2⟩
  · simp only at h1 h2
    subst h1 h2
    rcases rs with _ | ⟨r, rs⟩
    · rw [scan_copied _ _ _ _ hov (by simp)]
      simp
    rcases V with _ | ⟨e, V⟩
    · simp
    -- the first entry after the range lets the replacements in
    have hlt : r.range.start < e.range.start :=
      r.range.start_lt_stop.trans_le (hr e (by simp) r (by simp))
    have hstep : step range ⟨⟨r :: rs, false⟩, rem, o, ch⟩ e =
        ⟨⟨[], true⟩, rem, o ++ r :: rs ++ [e], ch⟩ := by
      simp only [step, Bool.not_false, head?_cons, Option.any_some, hlt,
        decide_true, Bool.and_self, if_true, if_neg (hov e (by simp))]
    rw [foldl_cons, hstep, scan_copied _ _ _ _ (fun a ha => hov a (by simp [ha])) (by simp)]
    simp
  · simp only at h1 h2
    subst h1 h2
    rw [scan_copied _ _ _ _ hov (by simp)]
    simp

/-- **One leaf**: the overlapping entries give way to the replacements. -/
lemma replaceRangeLeaf_spec (range : UserRange) (l : BPlusLeaf) (ne : l.entries ≠ [])
    (hch : Chained l.entries) (cur : ReplacementCursor) (hcur : cur.inserted → cur.entries = [])
    (hfit : FitsAt range l.entries cur.entries) (rem : RemovedRecipeRecorder) :
    ∃ r, replaceRangeLeaf range l cur rem = some r ∧ r.cursor = ⟨[], true⟩ ∧
      r.removed = rem.observeAll (meeting l.entries range.start range.stop) ∧
      AllShaped 1 (r.edited.toNodes (.leaf l)) ∧
      valuesAll (r.edited.toNodes (.leaf l)) =
        splice l.entries range.start range.stop cur.entries := by
  have hse := range.start_lt_stop
  set Lf := leftOf l.entries range.start with hLf
  set M := meeting l.entries range.start range.stop with hM
  set Rt := rightOf l.entries range.stop with hRt
  have hcut : l.entries = Lf ++ M ++ Rt := hch.cut hse
  have hL : ∀ e ∈ Lf, e ∈ l.entries ∧ e.range.stop ≤ range.start := fun e he => mem_leftOf.mp he
  have hR : ∀ e ∈ Rt, e ∈ l.entries ∧ range.stop ≤ e.range.start := fun e he => mem_rightOf.mp he
  have hMo : ∀ e ∈ M, e.range.overlaps range := fun e he => (mem_meeting.mp he).2
  -- the scan, part by part
  have h1 : Lf.foldl (step range) ⟨cur, rem, [], false⟩ = ⟨cur, rem, Lf, false⟩ := by
    refine scan_copied _ _ _ _ (fun e he => ?_) fun e he r hr => ?_
    · have := (hL e he).2
      simp only [overlaps]
      omega
    · have := hfit.left e (hL e he).1 (hL e he).2 r hr
      have := e.range.start_lt_stop
      omega
  have hp : Pending cur.entries Lf ⟨cur, rem, Lf, false⟩ := by
    obtain ⟨rs, ins⟩ := cur
    rcases ins with _ | _
    · exact .inl ⟨rfl, rfl⟩
    obtain rfl : rs = [] := hcur rfl
    exact .inr ⟨rfl, by simp⟩
  obtain ⟨p2, r2, c2⟩ := scan_meeting _ hMo hp
  obtain ⟨r3, c3, h3⟩ := scan_right _ (fun e he => (hR e he).2)
    (fun e he => hfit.right e (hR e he).1 (hR e he).2) p2
  rw [r2] at r3
  rw [c2] at c3
  have hscan : l.entries.foldl (step range) ⟨cur, rem, [], false⟩ =
      Rt.foldl (step range) (M.foldl (step range) ⟨cur, rem, Lf, false⟩) := by
    rw [hcut, foldl_append, foldl_append, h1]
  unfold replaceRangeLeaf
  rw [hscan]
  generalize Rt.foldl (step range) (M.foldl (step range) _) = s3 at r3 c3 h3
  obtain ⟨cur3, rem3, out3, ch3⟩ := s3
  simp only at r3 c3 h3
  subst r3 c3
  obtain ⟨ns, k1, -, k3, k4⟩ := leafNodesFromEntries_spec (Lf ++ cur.entries ++ Rt)
  have hsplice : splice l.entries range.start range.stop cur.entries = Lf ++ cur.entries ++ Rt :=
    rfl
  rcases h3 with ⟨rfl, ho⟩ | ⟨rfl, ho⟩
  · by_cases hsame : cur.entries = [] ∧ M = []
    · refine ⟨⟨.same, ⟨cur.entries, true⟩, rem.observeAll M⟩, by simp [hsame], by simp [hsame], rfl,
        fun n hn => ?_, ?_⟩
      · rw [toNodes, mem_singleton] at hn
        exact hn ▸ .leaf ne
      · rw [hsplice]
        simp [toNodes, hcut, hsame]
    · refine ⟨⟨.nodes ns, ⟨[], true⟩, rem.observeAll M⟩, ?_, rfl, rfl, k3, k4.trans hsplice.symm⟩
      have hne : (!false && cur.entries.isEmpty && !(false || !M.isEmpty)) = false := by
        simpa using hsame
      simp only [hne, Bool.false_eq_true, if_false, ho, k1, Option.map_some]
  · refine ⟨⟨.nodes ns, ⟨[], true⟩, rem.observeAll M⟩, ?_, rfl, rfl, k3, k4.trans hsplice.symm⟩
    simp only [Bool.not_true, Bool.false_and, Bool.false_eq_true, if_false, if_true, ho, k1,
      Option.map_some]

end Leaf

/-! ### The children a replacement visits -/

section ChildRange

variable {range : UserRange} {h : ℕ} {cs : List BPlusNode}

variable {c : BPlusNode}

lemma skipBefore_append {X : List BPlusNode} (Y : List BPlusNode) (k : ℕ)
    (hX : ∀ a ∈ X, a.beforeRange range = true) (hc : c.beforeRange range = false) :
    skipBefore range (X ++ c :: Y) k = k + X.length := by
  induction X generalizing k with
  | nil => simp [skipBefore, hc]
  | cons a X ih =>
    simp only [cons_append, skipBefore, hX a (by simp), if_true,
      ih _ fun x hx => hX x (by simp [hx]), length_cons]
    omega

lemma extendLast_after {Y : List BPlusNode} (k : ℕ) (hY : ∀ a ∈ Y, a.afterRange range = true) :
    extendLast range Y k = k := by
  cases Y with
  | nil => rfl
  | cons a Y => simp [extendLast, hY a (by simp)]

lemma retreatLast_spec (range : UserRange) (cs : List BPlusNode) {first last : ℕ}
    (hf : first ≤ last) :
    first ≤ retreatLast range cs first last ∧ retreatLast range cs first last ≤ last ∧
      (∀ i, retreatLast range cs first last < i → i ≤ last →
        ∀ c, cs[i]? = some c → c.afterRange range = true) ∧
      (first < retreatLast range cs first last →
        ∀ c, cs[retreatLast range cs first last]? = some c → c.afterRange range = false) := by
  induction last with
  | zero =>
    refine ⟨by simpa [retreatLast] using hf, by simp [retreatLast], fun i h1 h2 => ?_, fun h => ?_⟩
    · omega
    · simp [retreatLast] at h
  | succ last ih =>
    rw [retreatLast]
    split_ifs with hc
    · obtain ⟨h1, h2, h3, h4⟩ := ih (by omega)
      refine ⟨h1, by omega, fun i hi1 hi2 c hic => ?_, h4⟩
      rcases Nat.lt_or_ge last i with hlt | hge
      · obtain rfl : i = last + 1 := by omega
        simpa [hic] using hc.2
      · exact h3 i hi1 hge c hic
    · refine ⟨hf, le_refl _, fun i h1 h2 => by omega, fun hlt c hcs => ?_⟩
      simpa [hlt, hcs] using hc

lemma exists_first_child (hne : ∃ c ∈ cs, c.beforeRange range = false) :
    ∃ A c Y, cs = A ++ c :: Y ∧ (∀ a ∈ A, a.beforeRange range = true) ∧
      c.beforeRange range = false := by
  obtain ⟨c, hf⟩ := Option.isSome_iff_exists.mp
    (find?_isSome (p := fun c : BPlusNode => !c.beforeRange range) |>.mpr (by simpa using hne))
  obtain ⟨hc, A, Y, rfl, hA⟩ := find?_eq_some_iff_append.mp hf
  exact ⟨A, c, Y, rfl, by simpa using hA, by simpa using hc⟩

lemma mem_valuesAll {ns : List BPlusNode} {e : VmEntry} :
    e ∈ valuesAll ns ↔ ∃ n ∈ ns, e ∈ n.values := by
  induction ns with
  | nil => simp
  | cons n ns ih => simp [ih]

lemma childRangeForReplace_spec (hcs : AllShaped h cs) (hch : Chained (valuesAll cs))
    (hne : ∃ c ∈ cs, c.beforeRange range = false) :
    ∃ A c M B, cs = A ++ c :: (M ++ B) ∧ (∀ e ∈ valuesAll A, e.range.stop ≤ range.start) ∧
      c.beforeRange range = false ∧ (∀ e ∈ valuesAll B, range.stop ≤ e.range.start) ∧
      childRangeForReplace (separatorsFor cs) cs range = some (A.length, A.length + M.length) ∧
      ∀ m, M.getLast? = some m → m.afterRange range = false := by
  obtain ⟨A, c, Y, hcsY, hA, hc⟩ := exists_first_child hne
  have hnil : cs ≠ [] := by rw [hcsY]; simp
  have hlen : cs.length = A.length + Y.length + 1 := by rw [hcsY]; simp; omega
  have hget : cs[A.length]? = some c := by rw [hcsY]; simp
  have hcc : c ∈ cs := by rw [hcsY]; simp
  have hafter : ∀ b ∈ cs, b.afterRange range = true → ∀ e ∈ b.values, range.stop ≤ e.range.start :=
    fun b hb hba => (afterRange_iff (hcs b hb) (chained_child hch hb) range).mp hba
  have hAv : ∀ e ∈ valuesAll A, e.range.stop ≤ range.start := by
    intro e he
    obtain ⟨a, ha, hea⟩ := mem_valuesAll.mp he
    have hacs : a ∈ cs := by rw [hcsY]; simp [ha]
    exact (beforeRange_iff (hcs a hacs) (chained_child hch hacs) range).mp (hA a ha) e hea
  -- the search starts at or before the first child that does not lie before the range
  obtain ⟨A1, c1, B1, hr1, hidx1, hA1, -, -⟩ := route hcs hnil hch range.start
  have hle1 : A1.length ≤ A.length := by
    by_contra hlt
    have hmem : c ∈ A1 := by
      rw [hr1, getElem?_append_left (by omega)] at hget
      exact mem_of_getElem? hget
    have : c.beforeRange range = true :=
      (beforeRange_iff (hcs c hcc) (chained_child hch hcc) range).mpr fun e he =>
        hA1 e (mem_valuesAll.mpr ⟨c, hmem, he⟩)
    simp [hc] at this
  have hfirst : skipBefore range (cs.drop (A1.length - 1)) (A1.length - 1) = A.length := by
    rw [hcsY, drop_append_of_le_length (by omega),
      skipBefore_append _ _ (fun a ha => hA a (mem_of_mem_drop ha)) hc, length_drop]
    omega
  have hnf : ¬ A.length = cs.length := by omega
  by_cases hca : c.afterRange range = true
  · -- a gap in front of `c`
    refine ⟨A, c, [], Y, by simpa using hcsY, hAv, hc, ?_, ?_, by simp⟩
    · intro e he
      obtain ⟨f, hf⟩ := exists_mem_of_ne_nil _ (hcs c hcc).values_ne_nil
      rw [hcsY, valuesAll_append, valuesAll_cons, chained_append, chained_append] at hch
      have h1 := hch.2.1.2.2 f hf e he
      have h2 := hafter c hcc hca f hf
      have h3 := f.range.start_lt_stop
      simp only [hi_eq, lo_eq] at h1
      omega
    · simp only [childRangeForReplace, if_neg (by omega : ¬ cs.length = 0), hidx1, hfirst, hnf,
        hget, Option.any_some, hca, or_true, if_true, length_nil, Nat.add_zero]
      rw [min_eq_left (by omega)]
  obtain ⟨A2, c2, B2, hr2, hidx2, -, -, hB2⟩ := route hcs hnil hch range.stop
  have hB2a : ∀ b ∈ B2, b.afterRange range = true := fun b hb => by
    have hbcs : b ∈ cs := by rw [hr2]; simp [hb]
    refine (afterRange_iff (hcs b hbcs) (chained_child hch hbcs) range).mpr fun e he => ?_
    exact (hB2 e (mem_valuesAll.mpr ⟨b, hb, he⟩)).le
  have hle2 : A.length ≤ A2.length := by
    by_contra hlt
    obtain ⟨j, hj⟩ : ∃ j, A.length = A2.length + (j + 1) := ⟨A.length - A2.length - 1, by omega⟩
    rw [hr2, hj, getElem?_append_right (by omega), Nat.add_sub_cancel_left,
      getElem?_cons_succ] at hget
    exact hca (hB2a c (mem_of_getElem? hget))
  have hlen2 : cs.length = A2.length + B2.length + 1 := by rw [hr2]; simp; omega
  have hdrop2 : cs.drop (A2.length + 1) = B2 := by rw [hr2, drop_append]; simp
  obtain ⟨hl1, hl2, hl3, hl4⟩ := retreatLast_spec range cs hle2
  set last := retreatLast range cs A.length A2.length with hlast
  have htake : A.length + (Y.take (last - A.length)).length = last := by
    rw [length_take]
    omega
  refine ⟨A, c, Y.take (last - A.length), Y.drop (last - A.length), by simpa using hcsY, hAv, hc,
    ?_, ?_, fun m hm => ?_⟩
  · intro e he
    obtain ⟨b, hb, heb⟩ := mem_valuesAll.mp he
    have hbcs : b ∈ cs := by rw [hcsY]; simp [mem_of_mem_drop hb]
    refine hafter b hbcs ?_ e heb
    obtain ⟨j, hj⟩ := getElem?_of_mem hb
    have hget' : cs[last + 1 + j]? = some b := by
      rw [hcsY, getElem?_append_right (by omega),
        show last + 1 + j - A.length = (last - A.length + j) + 1 by omega,
        getElem?_cons_succ, ← getElem?_drop]
      exact hj
    rcases Nat.lt_or_ge A2.length (last + 1 + j) with hlt | hge
    · refine hB2a b ?_
      rw [← hdrop2]
      refine mem_of_getElem? (i := last + 1 + j - (A2.length + 1)) ?_
      rw [getElem?_drop, ← hget']
      congr 1
      omega
    · exact hl3 _ (by omega) hge b hget'
  · simp only [childRangeForReplace, if_neg (by omega : ¬ cs.length = 0), hidx1, hfirst, hnf, hget,
      Option.any_some, hca, or_self, Bool.false_eq_true, if_false, hidx2,
      min_eq_left (by omega : A2.length ≤ cs.length - 1), hdrop2, extendLast_after _ hB2a,
      ← hlast, htake]
  · have hlt : A.length < last := by
      by_contra hge
      rw [show last - A.length = 0 by omega] at hm
      simp at hm
    refine hl4 hlt m ?_
    rw [getLast?_eq_getElem?, getElem?_take_of_lt (by omega)] at hm
    rw [hcsY, getElem?_append_right (by omega),
      show last - A.length = (Y.take (last - A.length)).length - 1 + 1 by omega,
      getElem?_cons_succ]
    exact hm

end ChildRange

/-! ### A subtree -/

section Subtree

variable {range : UserRange} {h : ℕ}

/-- A subtree stays as it is if it lies before the range, and takes the replacements in
otherwise. -/
structure Outcome (range : UserRange) (h : ℕ) (n : BPlusNode) (cur : ReplacementCursor)
    (rem : RemovedRecipeRecorder) (r : Replaced) : Prop where
  removed : r.removed = rem.observeAll (meeting n.values range.start range.stop)
  shaped : AllShaped h (r.edited.toNodes n)
  before : n.beforeRange range = true → r.edited = .same ∧ r.cursor = cur
  inserts : n.beforeRange range = false → r.cursor = ⟨[], true⟩ ∧
    valuesAll (r.edited.toNodes n) = splice n.values range.start range.stop cur.entries

variable {n : BPlusNode} {rem : RemovedRecipeRecorder} {cur : ReplacementCursor} {W : List VmEntry}
  {M : List BPlusNode}

lemma allShaped_same (hn : WellShaped h n) :
    AllShaped h (same.toNodes n) := fun m hm => by
  rw [toNodes, mem_singleton] at hm
  exact hm ▸ hn

lemma toNodes_of_isSame {e : Edited} (h : e.isSame = true) : e.toNodes n = [n] := by
  cases e with
  | same => rfl
  | nodes ms => cases h

lemma outcome_before (hn : WellShaped h n) (hch : Chained n.values)
    (hb : n.beforeRange range = true) (cur : ReplacementCursor) (rem : RemovedRecipeRecorder) :
    Outcome range h n cur rem ⟨.same, cur, rem⟩ where
  removed := by
    rw [(cut_of_left range.start_lt_stop.le ((beforeRange_iff hn hch range).mp hb)).2.1]
    rfl
  shaped := allShaped_same hn
  before _ := ⟨rfl, rfl⟩
  inserts h := by simp [hb] at h

lemma outcome_after (hn : WellShaped h n) (hch : Chained n.values)
    (hb : n.beforeRange range = false) (ha : n.afterRange range = true)
    (hcur : cur.inserted → cur.entries = []) (hleaf : cur.entries = [] ∨ h = 1)
    (rem : RemovedRecipeRecorder) :
    ∃ r, replaceRangeAfter n cur rem = some r ∧ Outcome range h n cur rem r := by
  obtain ⟨h1, h2, h3⟩ :=
    cut_of_right range.start_lt_stop.le ((afterRange_iff hn hch range).mp ha)
  have hsplice : splice n.values range.start range.stop cur.entries = cur.entries ++ n.values := by
    simp [splice, h1, h3]
  have hsame : cur.entries = [] → Outcome range h n cur rem ⟨.same, ⟨[], true⟩, rem⟩ := fun hnil =>
    ⟨by rw [h2]; rfl, allShaped_same hn, by simp [hb], fun _ => ⟨rfl, by
      rw [hsplice, hnil]; simp [toNodes]⟩⟩
  unfold replaceRangeAfter
  obtain ⟨rs, ins⟩ := cur
  simp only at hcur hleaf hsplice hsame ⊢
  rcases ins with _ | _
  · rcases rs with _ | ⟨r, rs⟩
    · exact ⟨_, rfl, hsame rfl⟩
    obtain rfl : h = 1 := hleaf.resolve_left (by simp)
    obtain ⟨ns, k1, -, k3, k4⟩ := leafNodesFromEntries_spec (r :: rs)
    refine ⟨⟨.nodes (ns ++ [n]), ⟨[], true⟩, rem⟩, by simp [k1], by rw [h2]; rfl, ?_,
      by simp [hb], fun _ => ⟨rfl, ?_⟩⟩
    · exact allShaped_append.mpr ⟨k3, allShaped_same hn⟩
    rw [hsplice]
    simp [toNodes, k4]
  · obtain rfl : rs = [] := hcur rfl
    exact ⟨_, rfl, hsame rfl⟩

lemma Outcome.inserted (hn : WellShaped h n) (hch : Chained n.values) {r : Replaced}
    (ho : Outcome range h n ⟨[], true⟩ rem r) :
    r.cursor = ⟨[], true⟩ ∧
      valuesAll (r.edited.toNodes n) = splice n.values range.start range.stop [] := by
  by_cases hb : n.beforeRange range = true
  · obtain ⟨h1, h2⟩ := ho.before hb
    obtain ⟨k1, -, k3⟩ :=
      cut_of_left range.start_lt_stop.le ((beforeRange_iff hn hch range).mp hb)
    exact ⟨h2, by simp [h1, toNodes, splice, k1, k3]⟩
  · exact ho.inserts (by simpa using hb)

lemma replaceRangeChildren_skip (A cs : List BPlusNode) (count : ℕ) (cur : ReplacementCursor)
    (rem : RemovedRecipeRecorder) :
    replaceRangeChildren range (A ++ cs) A.length (count + 1) cur rem =
      replaceRangeChildren range cs 0 (count + 1) cur rem := by
  induction A with
  | nil => rfl
  | cons a A ih => simpa [replaceRangeChildren] using ih

lemma splice_nil_append {V : List VmEntry} {s e : ℕ} (hse : s < e) (hch : Chained (V ++ W)) :
    splice (V ++ W) s e [] = splice V s e [] ++ splice W s e [] := by
  obtain ⟨hV, hW, -⟩ := chained_append.mp hch
  simp only [splice, append_nil]
  rw [← hch.filter_not_meeting hse, ← hV.filter_not_meeting hse, ← hW.filter_not_meeting hse,
    filter_append]

lemma replaceRangeChildren_inserted (B : List BPlusNode) (hM : AllShaped h M)
    (hch : Chained (valuesAll M))
    (ih : ∀ m ∈ M, ∀ rem, ∃ r, replaceRangeNode range m ⟨[], true⟩ rem = some r ∧
      Outcome range h m ⟨[], true⟩ rem r)
    (rem : RemovedRecipeRecorder) :
    ∃ ns same, replaceRangeChildren range (M ++ B) 0 M.length ⟨[], true⟩ rem =
        some ⟨ns, same, ⟨[], true⟩, rem.observeAll (meeting (valuesAll M) range.start range.stop)⟩ ∧
      AllShaped h ns ∧ valuesAll ns = splice (valuesAll M) range.start range.stop [] ∧
      (same = true → ns = M) := by
  induction M generalizing rem with
  | nil => exact ⟨[], true, by simp [replaceRangeChildren, meeting], .nil h,
      by simp [splice, leftOf, rightOf], by simp⟩
  | cons m M ihM =>
    obtain ⟨hm, hMs⟩ := allShaped_cons.mp hM
    have hch' := hch
    rw [valuesAll_cons, chained_append] at hch'
    obtain ⟨r, h1, ho⟩ := ih m (by simp) rem
    obtain ⟨h2, h3⟩ := ho.inserted hm hch'.1
    obtain ⟨ns, same, k1, k2, k3, k4⟩ :=
      ihM hMs hch'.2.1 (fun x hx => ih x (by simp [hx])) r.removed
    refine ⟨r.edited.toNodes m ++ ns, r.edited.isSame && same, ?_, ?_, ?_, ?_⟩
    · rw [valuesAll_cons, meeting_append, observeAll_append, ← ho.removed]
      simp [replaceRangeChildren, h1, h2, k1]
    · exact allShaped_append.mpr ⟨ho.shaped, k2⟩
    · rw [valuesAll_append, h3, k3, valuesAll_cons,
        splice_nil_append range.start_lt_stop (valuesAll_cons m M ▸ hch)]
    intro hs
    rw [Bool.and_eq_true] at hs
    rw [k4 hs.2, toNodes_of_isSame hs.1]
    rfl

lemma leftOf_behind (hn : WellShaped h c) (hch : Chained (c.values ++ W))
    (hb : c.beforeRange range = false) : leftOf W range.start = [] := by
  obtain ⟨hc, -, hcross⟩ := chained_append.mp hch
  have hnot : ¬ ∀ e ∈ c.values, e.range.stop ≤ range.start := fun hall => by
    rw [(beforeRange_iff hn hc range).mpr hall] at hb
    cases hb
  push Not at hnot
  obtain ⟨e, he, hlt⟩ := hnot
  refine filter_eq_nil_iff.mpr fun w hw => ?_
  have h1 := hcross e he w hw
  have h2 := w.range.start_lt_stop
  simp only [hi_eq, lo_eq] at h1
  simp only [hi_eq, decide_eq_true_eq]
  omega

lemma replaceRangeChildren_spec {cs A B : List BPlusNode} (hcs : AllShaped h cs)
    (hch : Chained (valuesAll cs)) (hdec : cs = A ++ c :: (M ++ B))
    (hcb : c.beforeRange range = false)
    (ihc : ∃ r, replaceRangeNode range c cur rem = some r ∧ Outcome range h c cur rem r)
    (ihM : ∀ m ∈ M, ∀ rem, ∃ r, replaceRangeNode range m ⟨[], true⟩ rem = some r ∧
      Outcome range h m ⟨[], true⟩ rem r) :
    ∃ ns same, replaceRangeChildren range cs A.length (M.length + 1) cur rem =
        some ⟨ns, same, ⟨[], true⟩,
          rem.observeAll (meeting (c.values ++ valuesAll M) range.start range.stop)⟩ ∧
      AllShaped h ns ∧
      valuesAll ns = splice (c.values ++ valuesAll M) range.start range.stop cur.entries ∧
      (same = true → ns = c :: M) := by
  subst hdec
  obtain ⟨-, hc, hMB⟩ := hcs.around
  obtain ⟨hM, -⟩ := allShaped_append.mp hMB
  rw [valuesAll_append, valuesAll_cons, valuesAll_append, chained_append] at hch
  have hcM : Chained (c.values ++ valuesAll M) :=
    hch.2.1.sublist (by rw [← append_assoc]; exact sublist_append_left _ _)
  obtain ⟨r, h1, ho⟩ := ihc
  obtain ⟨h2, h3⟩ := ho.inserts hcb
  obtain ⟨ns, same, k1, k2, k3, k4⟩ :=
    replaceRangeChildren_inserted B hM (chained_append.mp hcM).2.1 ihM r.removed
  refine ⟨r.edited.toNodes c ++ ns, r.edited.isSame && same, ?_, ?_, ?_, ?_⟩
  · rw [replaceRangeChildren_skip, meeting_append, observeAll_append, ← ho.removed]
    simp [replaceRangeChildren, h1, h2, k1]
  · exact allShaped_append.mpr ⟨ho.shaped, k2⟩
  · rw [valuesAll_append, h3, k3]
    simp [splice, leftOf_behind hc hcM hcb]
  intro hs
  rw [Bool.and_eq_true] at hs
  rw [k4 hs.2, toNodes_of_isSame hs.1]
  rfl

lemma outcome_internal {k : ℕ} {cs A B ns : List BPlusNode} {same : Bool} (hcs : AllShaped k cs)
    (hn : WellShaped (k + 1) (mkInternal cs (k + 1)))
    (hb : (mkInternal cs (k + 1)).beforeRange range = false) (hdec : cs = A ++ c :: (M ++ B))
    (hA : ∀ e ∈ valuesAll A, e.range.stop ≤ range.start)
    (hB : ∀ e ∈ valuesAll B, range.stop ≤ e.range.start) (hns : AllShaped k ns)
    (hval : valuesAll ns = splice (c.values ++ valuesAll M) range.start range.stop cur.entries)
    (hsame : same = true → ns = c :: M) :
    ∃ r, (if same then
          some ⟨.same, ⟨[], true⟩,
            rem.observeAll (meeting (c.values ++ valuesAll M) range.start range.stop)⟩
        else
          (internalNodesReplacingChildRange cs (k + 1) A.length (A.length + M.length) ns).map
            fun ms => ⟨.nodes ms, ⟨[], true⟩,
              rem.observeAll (meeting (c.values ++ valuesAll M) range.start range.stop)⟩) =
        some r ∧ Outcome range (k + 1) (mkInternal cs (k + 1)) cur rem r := by
  have hse := range.start_lt_stop.le
  have hV : valuesAll cs = valuesAll A ++ (c.values ++ valuesAll M) ++ valuesAll B := by
    rw [hdec]; simp
  have hmeet : meeting (valuesAll cs) range.start range.stop =
      meeting (c.values ++ valuesAll M) range.start range.stop := by
    rw [hV, meeting_append, meeting_append, (cut_of_left hse hA).2.1, (cut_of_right hse hB).2.1]
    simp
  have hsplice : splice (valuesAll cs) range.start range.stop cur.entries =
      valuesAll A ++ valuesAll ns ++ valuesAll B := by
    rw [hV, splice_middle hse hA hB, hval]
  have hnv : (mkInternal cs (k + 1)).values = valuesAll cs := by simp [mkInternal]
  have habs : ¬ (mkInternal cs (k + 1)).beforeRange range = true := by simp [hb]
  cases same with
  | true =>
    refine ⟨_, rfl, ?_, allShaped_same hn, fun h => absurd h habs, fun _ => ⟨rfl, ?_⟩⟩
    · rw [hnv, hmeet]
    rw [hnv, hsplice, hsame rfl, toNodes, valuesAll_cons, hnv, hV]
    simp
  | false =>
    have hkpos : 1 ≤ k := (hcs c (by rw [hdec]; simp)).height_pos
    have hlen : A.length + M.length < cs.length := by
      rw [hdec, length_append, length_cons, length_append]; omega
    obtain ⟨out, o1, o2, o3⟩ := internalNodesReplacingChildRange_spec hkpos hcs hns A.length
      (A.length + M.length) (by omega) hlen
    refine ⟨⟨.nodes out, ⟨[], true⟩, _⟩, by simp only [Bool.false_eq_true, if_false, o1]; rfl,
      ?_, o2, fun h => absurd h habs, fun _ => ⟨rfl, ?_⟩⟩
    · rw [hnv, hmeet]
    have htake : cs.take A.length = A := by rw [hdec]; simp
    have hdrop : cs.drop (A.length + M.length + 1) = B := by
      rw [hdec, drop_append, drop_of_length_le (by omega),
        show A.length + M.length + 1 - A.length = M.length + 1 by omega]
      simp
    rw [hnv, hsplice, toNodes, o3, htake, hdrop]

/-- **A subtree**: a range replacement goes through, keeps the shape and takes the replacements in,
unless it has some to put in and the range lies in front of an internal node. -/
lemma replaceRangeNode_spec (hn : WellShaped h n) (hch : Chained n.values) (cur : ReplacementCursor)
    (hcur : cur.inserted → cur.entries = []) (hfit : FitsAt range n.values cur.entries)
    (hgap : cur.entries = [] ∨ ¬ GapBeforeInternal range n) (rem : RemovedRecipeRecorder) :
    ∃ r, replaceRangeNode range n cur rem = some r ∧ Outcome range h n cur rem r := by
  induction hn generalizing cur rem with
  | @leaf l ne =>
    have hl : WellShaped 1 (.leaf l) := .leaf ne
    rw [replaceRangeNode]
    split_ifs with hb ha
    · exact ⟨_, rfl, outcome_before hl hch hb cur rem⟩
    · exact outcome_after hl hch (by simpa using hb) ha hcur (.inr rfl) rem
    obtain ⟨r, h1, h2, h3, h4, h5⟩ :=
      replaceRangeLeaf_spec range l ne (by simpa using hch) cur hcur (by simpa using hfit) rem
    exact ⟨r, h1, by simpa using h3, h4, fun h => absurd h hb, fun _ => ⟨h2, by simpa using h5⟩⟩
  | @internal k cs ne fits hcs ih =>
    have hn : WellShaped (k + 1) (mkInternal cs (k + 1)) := .internal ne fits hcs
    have hval : (mkInternal cs (k + 1)).values = valuesAll cs := by simp [mkInternal]
    have hchv : Chained (valuesAll cs) := hval ▸ hch
    have hbi := beforeRange_iff hn hch range
    have hai := afterRange_iff hn hch range
    unfold mkInternal at hbi hai ⊢
    rw [replaceRangeNode]
    split_ifs with hb ha
    · exact ⟨_, rfl, outcome_before hn hch hb cur rem⟩
    · -- in front of an internal node nothing may be pending
      have hnil : cur.entries = [] := hgap.resolve_right fun hno => hno (.here (by
        simpa [mkInternal] using hai.mp ha))
      exact outcome_after hn hch (by simpa [mkInternal] using hb) ha hcur (.inl hnil) rem
    have hne : ∃ c ∈ cs, c.beforeRange range = false := by
      by_contra hno
      push Not at hno
      refine hb (hbi.mpr fun e he => ?_)
      obtain ⟨c, hc, hec⟩ := mem_valuesAll.mp (by simpa using he)
      exact (beforeRange_iff (hcs c hc) (chained_child hchv hc) range).mp
        (by simpa using hno c hc) e hec
    obtain ⟨A, c, M, B, hdec, hA, hcb, hB, hrange, -⟩ := childRangeForReplace_spec hcs hchv hne
    have hgapc : cur.entries = [] ∨ ¬ GapBeforeInternal range c := by
      refine hgap.imp_right fun hno hgc => hno ?_
      rw [mkInternal, hdec]
      exact .child hA hgc
    have hmem : ∀ m ∈ c :: (M ++ B), m ∈ cs := fun m hm => by
      rw [hdec]; exact mem_append_right _ hm
    have hchc : ∀ m ∈ c :: (M ++ B), Chained m.values := fun m hm => chained_child hchv (hmem m hm)
    have hfitc : FitsAt range c.values cur.entries := hfit.sub fun e he => by
      rw [hval]
      exact mem_valuesAll.mpr ⟨c, hmem c (by simp), he⟩
    obtain ⟨ns, same, h1, h2, h3, h4⟩ := replaceRangeChildren_spec hcs hchv hdec hcb
      (ih c (hmem c (by simp)) (hchc c (by simp)) cur hcur hfitc hgapc rem)
      fun m hm rem => ih m (hmem m (by simp [hm])) (hchc m (by simp [hm])) ⟨[], true⟩
        (fun _ => rfl) (.nil _) (.inl rfl) rem
    have hcount : A.length + M.length - A.length + 1 = M.length + 1 := by omega
    simp only [hrange, hcount, h1]
    exact outcome_internal hcs hn (by simpa [mkInternal] using hb) hdec hA hB h2 h3 h4

end Subtree

end TxKernel.Vm.BPlusNode

/-! ### The index -/

namespace TxKernel.Vm.BPlusRecipeIndex

open TxKernel.Spans BPlusNode BPlusNode.RemovedRecipeRecorder

variable {t : BPlusRecipeIndex} {L rs : List VmEntry}

/-- The range lies in front of an internal node of the index. -/
def GapBeforeInternal (t : BPlusRecipeIndex) (range : UserRange) : Prop :=
  ∃ root, t.root = some root ∧ root.GapBeforeInternal range

lemma mergeSort_eq (h : Chained rs) :
    rs.mergeSort (fun a b => a.range.start ≤ b.range.start) = rs := by
  refine List.mergeSort_of_pairwise (h.lo_lt.imp fun {a b} hab => ?_)
  simp only [lo_eq] at hab
  simpa using hab.le

lemma IndexOf.foldlM_insertEntry (h : IndexOf t L) (hc : Chained (L ++ rs)) :
    ∃ t', rs.foldlM BPlusRecipeIndex.insertEntry t = some t' ∧ IndexOf t' (L ++ rs) := by
  induction rs generalizing t L with
  | nil => exact ⟨t, rfl, by simpa using h⟩
  | cons r rs ih =>
    have hr : ∀ a ∈ L, a.range.stop ≤ r.range.start := fun a ha =>
      (chained_append.mp hc).2.2 a ha r (by simp)
    have hno : ∀ a ∈ L, ¬ a.range.overlaps r.range := fun a ha hov => by
      have := hr a ha
      omega
    obtain ⟨t1, h1, h2⟩ := h.insertEntry hno
    have hlt := r.range.start_lt_stop
    obtain ⟨k1, -, k3⟩ := cut_of_left hlt.le hr
    have hsplice : splice L r.range.start r.range.stop [r] = L ++ [r] := by
      simp [splice, k1, k3]
    rw [hsplice] at h2
    obtain ⟨t2, h3, h4⟩ := ih h2 (by simpa using hc)
    exact ⟨t2, by simp [h1, h3], by simpa using h4⟩

lemma IndexOf.replaceRangeWithRecorder (h : IndexOf t L) {range : UserRange}
    (hr : Replacing L range.start range.stop rs) (hgap : rs = [] ∨ ¬ t.GapBeforeInternal range)
    (rem : RemovedRecipeRecorder) :
    ∃ t', t.replaceRangeWithRecorder range rs rem =
        some (t', rem.observeAll (meeting L range.start range.stop)) ∧
      IndexOf t' (splice L range.start range.stop rs) := by
  have hse := range.start_lt_stop
  unfold BPlusRecipeIndex.replaceRangeWithRecorder
  simp only [mergeSort_eq hr.chained]
  have hch := h.chained
  obtain ⟨rfl, rfl⟩ | ⟨root, k, rfl, hk, rfl⟩ := h.cases
  · obtain ⟨r, h1, h2, h3⟩ := buildFromEntries_spec rs
    refine ⟨⟨r⟩, by simp [h1, meeting], h2, ?_, hch.splice hse.le hr⟩
    simpa [splice, leftOf, rightOf] using h3
  have hgap' : rs = [] ∨ ¬ root.GapBeforeInternal range :=
    hgap.imp_right fun hno hg => hno ⟨root, rfl, hg⟩
  obtain ⟨r, h1, ho⟩ := replaceRangeNode_spec hk hch ⟨rs, false⟩ (by simp)
    ⟨fun _ he hs r hrs => (hr.within r hrs).right_of_left hch (mem_leftOf.mpr ⟨he, hs⟩),
      fun _ he hs r hrs => (hr.within r hrs).left_of_right hch (mem_rightOf.mpr ⟨he, hs⟩)⟩
    hgap' rem
  have hrem := ho.removed
  by_cases hb : root.beforeRange range = true
  · -- everything lies before the range: the replacements are inserted behind it
    obtain ⟨he, hcur⟩ := ho.before hb
    obtain ⟨k1, -, k3⟩ := cut_of_left hse.le ((beforeRange_iff hk hch range).mp hb)
    have hsplice : splice root.values range.start range.stop rs = root.values ++ rs := by
      simp [splice, k1, k3]
    obtain ⟨r', h4, h5⟩ := indexOf_rebuilt hk ho.shaped (by simpa [he, Edited.toNodes] using hch)
    have h5' : IndexOf ⟨r'⟩ root.values := by simpa [he, Edited.toNodes] using h5
    obtain ⟨t2, h6, h7⟩ := h5'.foldlM_insertEntry (hsplice ▸ hch.splice hse.le hr)
    exact ⟨t2, by simp [h1, h4, hcur, h6, hrem], hsplice ▸ h7⟩
  · obtain ⟨hcur, hvals⟩ := ho.inserts (by simpa using hb)
    obtain ⟨r', h4, h5⟩ := indexOf_spliced hk ho.shaped hch hvals hr
    exact ⟨⟨r'⟩, by simp [h1, h4, hcur, hrem], h5⟩

end TxKernel.Vm.BPlusRecipeIndex
