import TxKernel.Ext4.Directory.Insertion

/-!
Removal and rename: an entry's record becomes slack of the one before it, or a free record at the
start of its block; a rename is a removal and an insertion, or a replacement.
-/

namespace TxKernel.Ext4.Directory

open Bytes Record List TiledDir
open scoped List

/-! ### The row of records -/

section remove

variable {name : List UInt8} {inode : ℕ} {rs rs' : List Record} {r : Record}

/-- What a removal does to a row of records: those from the start to the one that is removed become
`front`. -/
structure Removes (name : List UInt8) (rs : List Record) (inode : ℕ) (pre : List Record)
    (r : Record) (post front : List Record) : Prop where
  split : rs = pre ++ r :: post
  binds : r.Binds name
  inode_eq : r.inode = inode
  live : live front = live pre
  size : size front = size pre + r.recLen
  wellFormed : (∀ q ∈ rs, q.WellFormed) → ∀ q ∈ front, q.WellFormed

lemma live?_absorb {next : Record} (h : r.WellFormed) : (r.absorb next).live? = r.live? := by
  unfold live?
  by_cases hfree : r.inode = 0
  · exact (if_pos hfree).trans (if_pos hfree).symm
  have hname : (r.absorb next).name = r.name :=
    take_append_of_le_length (h.named hfree).2
  rw [hname]
  rfl

lemma Removes.cons {q : Record} {pre post front : List Record}
    (h : Removes name rs inode pre r post front) :
    Removes name (q :: rs) inode (q :: pre) r post (q :: front) where
  split := by rw [h.split, cons_append]
  binds := h.binds
  inode_eq := h.inode_eq
  live := by rw [live_cons, live_cons, h.live]
  size := by rw [size_cons, size_cons, h.size, Nat.add_assoc]
  wellFormed hwf := by
    have hfront := h.wellFormed fun q hq => hwf q (.tail _ hq)
    simpa using ⟨hwf q (.head _), hfront⟩

lemma removeAfter_cases (prev : Record) (h : ∀ r ∈ prev :: rs, r.WellFormed) :
    (removeAfter name prev rs = none ∧ ∀ r ∈ rs, ¬ r.Binds name) ∨
    ∃ inode pre r post front, removeAfter name prev rs = some (inode, front ++ post) ∧
      Removes name (prev :: rs) inode pre r post front := by
  induction rs generalizing prev with
  | nil => exact .inl ⟨rfl, by simp⟩
  | cons r rs ih =>
    have hprev := h prev (.head _)
    by_cases hbinds : r.Binds name
    · refine .inr ⟨r.inode, [prev], r, rs, [prev.absorb r], if_pos hbinds, rfl, hbinds, rfl, ?_, ?_,
        fun hwf => ?_⟩
      · simp [live?_absorb hprev]
      · simp [recLen_absorb]
      · simpa using hprev.absorb (hwf r (by simp))
    have hstep : removeAfter name prev (r :: rs) =
        (removeAfter name r rs).map fun x => (x.1, prev :: x.2) := if_neg hbinds
    rw [hstep]
    rcases ih r fun q hq => h q (.tail _ hq) with ⟨hnone, hall⟩ |
      ⟨inode, pre, q, post, front, hsome, hremoves⟩
    · exact .inl ⟨by rw [hnone]; rfl, by simpa using ⟨hbinds, hall⟩⟩
    · exact .inr ⟨inode, prev :: pre, q, post, prev :: front, by rw [hsome]; rfl, hremoves.cons⟩

/-- **What a removal does**: there is no record of the name, or the first of them goes. -/
lemma removeRecords_cases (h : ∀ r ∈ rs, r.WellFormed) :
    (removeRecords name rs = none ∧ ∀ r ∈ rs, ¬ r.Binds name) ∨
    ∃ inode pre r post front, removeRecords name rs = some (inode, front ++ post) ∧
      Removes name rs inode pre r post front := by
  rcases rs with _ | ⟨r, rs⟩
  · exact .inl ⟨rfl, by simp⟩
  by_cases hbinds : r.Binds name
  · refine .inr ⟨r.inode, [], r, rs, [{ r with inode := 0 }], if_pos hbinds, rfl, hbinds, rfl, ?_,
      ?_, fun hwf => ?_⟩
    · simp [live?]
    · simp [recLen]
    have hr := hwf r (.head _)
    simpa using (⟨by simp, hr.le_recLen, hr.aligned, fun hlive => absurd rfl hlive⟩ :
      Record.WellFormed { r with inode := 0 })
  · have hstep : removeRecords name (r :: rs) = removeAfter name r rs := if_neg hbinds
    rw [hstep]
    rcases removeAfter_cases r h with ⟨hnone, hall⟩ | hsome
    · exact .inl ⟨hnone, by simpa using ⟨hbinds, hall⟩⟩
    · exact .inr hsome

end remove

/-! ### Replacement on the row of records -/

variable {e : LiveEntry} {expected replacement : ℕ} {before after : List UInt8}

lemma replaceRecords_cases {name : List UInt8} {rs : List Record} {out : Option (List Record)}
    (h : replaceRecords name expected replacement rs = .ok out) :
    (out = none ∧ ∀ r ∈ rs, ¬ r.Binds name) ∨
    ∃ pre r post, rs = pre ++ r :: post ∧ r.Binds name ∧ r.inode = expected ∧ r.fileType ≠ 2 ∧
      out = some (pre ++ { r with inode := replacement } :: post) := by
  induction rs generalizing out with
  | nil => exact .inl ⟨(Except.ok.inj h).symm, by simp⟩
  | cons r rs ih =>
    rw [replaceRecords] at h
    by_cases hbinds : r.inode ≠ 0 ∧ r.name = name
    · rw [if_pos hbinds] at h
      split_ifs at h with hexp htype
      exact .inr ⟨[], r, rs, rfl, hbinds, not_not.mp hexp, htype, (Except.ok.inj h).symm⟩
    rw [if_neg hbinds] at h
    rcases hrest : replaceRecords name expected replacement rs with e | rest
    · rw [hrest] at h
      cases h
    rw [hrest] at h
    obtain rfl := Except.ok.inj h
    rcases ih hrest with ⟨rfl, hall⟩ | ⟨pre, q, post, rfl, hq, hexp, htype, rfl⟩
    · exact .inl ⟨rfl, by simpa using ⟨hbinds, hall⟩⟩
    · exact .inr ⟨r :: pre, q, post, rfl, hq, hexp, htype, rfl⟩

/-! ### Blocks -/

namespace Block

variable {c : DirContext} {name : List UInt8}

lemma tail_behind_live (b : Block c) {pre post : List Record} {r : Record}
    (hrecords : b.records = pre ++ r :: post) (hlive : r.inode ≠ 0) (hseed : c.seed.isSome) :
    ∃ post' t, post = post' ++ [t] ∧ t.IsTail := by
  rcases b.tail_behind hrecords hseed with ⟨-, ht⟩ | htail
  · exact absurd ht.free hlive
  · exact htail

lemma remove_cases (b : Block c) :
    (removeBlock c name (layout b.records) = .ok none ∧ ∀ r ∈ b.records, ¬ r.Binds name) ∨
    ∃ (b' : Block c) (e : LiveEntry) (pre post : List LiveEntry),
      removeBlock c name (layout b.records) = .ok (some (e.inode, layout b'.records)) ∧
      e.name = name ∧ live b.records = pre ++ e :: post ∧ live b'.records = pre ++ post ∧
      b'.Checksummed := by
  have hscan := removeIn_layout b.tiled name
  rcases removeRecords_cases b.tiled.wellFormed with ⟨hnone, hall⟩ |
    ⟨inode, pre, r, post, front, hsome, hremoves⟩
  · exact .inl ⟨by rw [removeBlock, hscan, hnone]; rfl, hall⟩
  have hlive := hremoves.binds.1
  have htiled : Tiled (front ++ post) := by
    have hfull := b.tiled.full
    have hfront := hremoves.wellFormed b.tiled.wellFormed
    refine ⟨fun q hq => ?_, ?_⟩
    · rcases mem_append.mp hq with hq | hq
      · exact hfront q hq
      · exact b.tiled.wellFormed q (by simp [hremoves.split, hq])
    · rw [hremoves.split] at hfull
      simp only [size_append, size_cons, hremoves.size] at hfull ⊢
      omega
  obtain ⟨b', hrefresh, hsum, hlive'⟩ :=
    exists_edited htiled (b.tail_behind_live hremoves.split hlive)
  have hentry : r.live? = some ⟨name, inode, r.fileType⟩ := by
    rw [live?, if_neg hlive, hremoves.inode_eq, hremoves.binds.2]
  refine .inr ⟨b', ⟨name, inode, r.fileType⟩, live pre, live post, ?_, rfl, ?_, ?_, hsum⟩
  · rw [removeBlock, hscan, hsome]
    simp only [Option.map_some, ok_bind, hrefresh, pure_eq_ok]
  · rw [hremoves.split, live_append, live_cons, hentry]
    rfl
  · rw [hlive', hremoves.live]

lemma replace_cases (b : Block c) (hne : replacement ≠ 0) (hlt : replacement < 2 ^ 32)
    {out : Option (List UInt8)}
    (h : replaceBlock c name expected replacement (layout b.records) = .ok out) :
    (out = none ∧ ∀ r ∈ b.records, ¬ r.Binds name) ∨
    ∃ (b' : Block c) (e : LiveEntry) (pre post : List LiveEntry),
      out = some (layout b'.records) ∧ e.name = name ∧ e.inode = expected ∧
      live b.records = pre ++ e :: post ∧
      live b'.records = pre ++ { e with inode := replacement } :: post ∧ b'.Checksummed := by
  have hlen := length_le_size b.tiled.wellFormed
  rw [b.tiled.full] at hlen
  have hscan : replaceIn name expected replacement (layout b.records) blockSize 0 =
      (replaceRecords name expected replacement b.records).map (Option.map layout) :=
    replaceIn_layout name expected replacement [] b.records b.tiled.wellFormed
      (by simpa using b.tiled.full) blockSize (by omega)
  rw [replaceBlock, hscan] at h
  rcases hrow : replaceRecords name expected replacement b.records with e | row
  · rw [hrow] at h
    cases h
  rw [hrow] at h
  rcases replaceRecords_cases hrow with
    ⟨rfl, hall⟩ | ⟨pre, r, post, hsplit, hbinds, hexp, -, rfl⟩
  · exact .inl ⟨(Except.ok.inj h).symm, hall⟩
  have htiled : Tiled ((pre ++ [{ r with inode := replacement }]) ++ post) := by
    have hr := b.tiled.wellFormed r (by simp [hsplit])
    refine ⟨fun q hq => ?_, ?_⟩
    · simp only [mem_append, mem_singleton] at hq
      rcases hq with (hq | rfl) | hq
      · exact b.tiled.wellFormed q (by simp [hsplit, hq])
      · exact ⟨hlt, hr.le_recLen, hr.aligned, fun _ => hr.named hbinds.1⟩
      · exact b.tiled.wellFormed q (by simp [hsplit, hq])
    · have hfull := b.tiled.full
      rw [hsplit] at hfull
      simpa [recLen] using hfull
  obtain ⟨b', hrefresh, hsum, hlive⟩ :=
    exists_edited htiled (b.tail_behind_live hsplit hbinds.1)
  rw [append_assoc, singleton_append] at hrefresh
  simp only [Except.map, Option.map_some, ok_bind, hrefresh, pure_eq_ok] at h
  have hentry : r.live? = some ⟨name, expected, r.fileType⟩ := by
    rw [live?, if_neg hbinds.1, hexp, hbinds.2]
  have hentry' : live? { r with inode := replacement } =
      some ⟨name, replacement, r.fileType⟩ := by
    rw [← hbinds.2]
    exact if_neg hne
  refine .inr ⟨b', ⟨name, expected, r.fileType⟩, live pre, live post, (Except.ok.inj h).symm, rfl,
    rfl, ?_, ?_, hsum⟩
  · rw [hsplit, live_append, live_cons, hentry]
    rfl
  · rw [hlive, live_append, live_cons, hentry', live_nil]
    simp

end Block

/-! ### Directories -/

namespace TiledDir

variable {D : TiledDir} {name : List UInt8}

lemma inode_of_mem_live (he : e ∈ D.live) : e.inode ≠ 0 ∧ e.inode < 2 ^ 32 := by
  obtain ⟨row, hrow, he⟩ := mem_flatMap.mp he
  rcases row with _ | ⟨phys, b⟩
  · cases he
  obtain ⟨r, hr, hlive⟩ := mem_filterMap.mp he
  unfold live? at hlive
  split_ifs at hlive with hfree
  obtain rfl := Option.some.inj hlive
  exact ⟨hfree, (b.tiled.wellFormed r hr).inode_lt⟩

variable {pre post : List (Option (ℕ × Block D.context))} {phys home : ℕ} {new : List LiveEntry}

structure SameShape (D D' : TiledDir) : Prop where
  isDir : D'.isDir = D.isDir
  isHtreeIndexed : D'.isHtreeIndexed = D.isHtreeIndexed
  homes : D'.homes = D.homes
  checksummed : D.Checksummed → D'.Checksummed

lemma Has.sameShape {b b' : Block D.context} (h : D.Has pre phys b post) (hb : b'.Checksummed) :
    SameShape D (h.set b') where
  isDir := rfl
  isHtreeIndexed := rfl
  homes := by
    rw [homes, homes, h.rows]
    simp [Has.set]
  checksummed hsum := h.checksummed_set hsum hb

/-- What an edit of one entry does. -/
structure Edited (D : TiledDir) (e : LiveEntry) (new : List LiveEntry) (D' : TiledDir) : Prop where
  shape : SameShape D D'
  live : ∃ pre post, D.live = pre ++ e :: post ∧ D'.live = pre ++ new ++ post

lemma Edited.mem {D' : TiledDir} (h : D.Edited e new D') : e ∈ D.live := by
  obtain ⟨pre, post, hD, -⟩ := h.live
  simp [hD]

lemma Has.edited {b b' : Block D.context} (h : D.Has pre phys b post) (hb : b'.Checksummed)
    {lpre lpost : List LiveEntry} (hlive : Directory.live b.records = lpre ++ e :: lpost)
    (hlive' : Directory.live b'.records = lpre ++ new ++ lpost) : D.Edited e new (h.set b') where
  shape := h.sameShape hb
  live := by
    refine ⟨pre.flatMap rowLive ++ lpre, lpost ++ post.flatMap rowLive, ?_, ?_⟩
    · rw [h.live, hlive]
      simp
    · rw [h.live_set, hlive']
      simp

lemma exists_removed {inode : ℕ}
    (h : D.toDir.planRemoveDirEntryAfterImage name = .ok (inode, home, before, after)) :
    ∃ (D' : TiledDir) (e : LiveEntry), D'.toDir = D.toDir.stage home after ∧ D.Edited e [] D' ∧
      e.name = name ∧ e.inode = inode ∧ home ∈ D.homes := by
  rw [Dir.planRemoveDirEntryAfterImage, bind_eq_ok] at h
  obtain ⟨⟨phys, page, found, image⟩, hfirst, hout⟩ := h
  obtain ⟨rfl, rfl, rfl, rfl⟩ : found = inode ∧ phys = home ∧ page = before ∧ image = after := by
    simpa using Except.ok.inj hout
  obtain ⟨pre, b, post, hrows, rfl, hscan, -⟩ := of_firstIn_ok hfirst
  have has : D.Has pre phys b post := ⟨hrows⟩
  have hscan : removeBlock D.context name (layout b.records) = .ok (some (found, image)) := hscan
  rcases b.remove_cases with ⟨hnone, -⟩ | ⟨b', e, lpre, lpost, hsome, hname, hlive, hlive', hsum⟩
  · cases hscan.symm.trans hnone
  obtain ⟨rfl, rfl⟩ := Prod.mk.inj (Option.some.inj (Except.ok.inj (hscan.symm.trans hsome)))
  exact ⟨has.set b', e, (has.stage b').symm, has.edited hsum hlive (by simpa using hlive'), hname,
    rfl, has.mem_homes⟩

lemma exists_replaced (hne : replacement ≠ 0) (hlt : replacement < 2 ^ 32)
    (h : D.toDir.planReplaceDirEntryInodeAfterImage name expected replacement =
      .ok (home, before, after)) :
    ∃ (D' : TiledDir) (e : LiveEntry), D'.toDir = D.toDir.stage home after ∧
      D.Edited e [{ e with inode := replacement }] D' ∧ e.name = name ∧ e.inode = expected := by
  unfold Dir.planReplaceDirEntryInodeAfterImage at h
  split_ifs at h
  obtain ⟨pre, b, post, hrows, rfl, hscan, -⟩ := of_firstIn_ok h
  have has : D.Has pre home b post := ⟨hrows⟩
  have hscan : replaceBlock D.context name expected replacement (layout b.records) =
    .ok (some after) := hscan
  rcases b.replace_cases hne hlt hscan with
    ⟨hnone, -⟩ | ⟨b', e, lpre, lpost, hsome, hname, hexp, hlive, hlive', hsum⟩
  · cases hnone
  obtain rfl := Option.some.inj hsome
  exact ⟨has.set b', e, (has.stage b').symm, has.edited hsum hlive (by simpa using hlive'), hname,
    hexp⟩

end TiledDir

end TxKernel.Ext4.Directory
