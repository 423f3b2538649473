import TxKernel.Ext4.Directory.Plans

/-!
The insertion of an entry. The scan takes the first record with room, and a checksum tail is to it a
free record of 12 bytes: an entry that fits there is written over the tail of a full block, and the
tail is then written over the entry.
-/

namespace TxKernel.Ext4.Directory

open Bytes List Record Directory.Block Function
open scoped List

structure Bindable (name : List UInt8) (inode : ℕ) : Prop where
  pos : 0 < name.length
  le : name.length ≤ 255
  ne : inode ≠ 0
  lt : inode < 2 ^ 32

/-! ### Records with room -/

namespace Record

def Binds (name : List UInt8) (r : Record) : Prop := r.inode ≠ 0 ∧ r.name = name

instance (name : List UInt8) (r : Record) : Decidable (r.Binds name) :=
  inferInstanceAs (Decidable (_ ∧ _))

/-- A free record, or the slack of a record, is enough for a name of length `n`. -/
def HasRoom (n : ℕ) (r : Record) : Prop :=
  sizeFor n ≤ if r.inode = 0 then r.recLen else r.recLen - r.used

instance (n : ℕ) (r : Record) : Decidable (r.HasRoom n) := inferInstanceAs (Decidable (_ ≤ _))

/-- What becomes of the record that an entry is put into. -/
def insert (name : List UInt8) (newInode : ℕ) (fileType : UInt8) (r : Record) : List Record :=
  if r.inode = 0 then [new newInode r.recLen fileType name]
  else [r.shrink, new newInode (r.recLen - r.used) fileType name]

section insert

variable {name : List UInt8} {newInode : ℕ} {fileType : UInt8} {r : Record}

lemma size_insert (h : r.WellFormed) (hroom : r.HasRoom name.length) :
    size (r.insert name newInode fileType) = r.recLen := by
  have hsize := eight_le_sizeFor name.length
  unfold insert
  unfold HasRoom at hroom
  split_ifs at hroom ⊢ with hfree
  · simp [recLen_new newInode fileType (hsize.trans hroom)]
  simp only [size_cons, size_nil, h.recLen_shrink hfree,
    recLen_new newInode fileType (hsize.trans hroom)]
  omega

lemma wellFormed_insert (h : r.WellFormed) (hroom : r.HasRoom name.length)
    (hn : Bindable name newInode) : ∀ q ∈ r.insert name newInode fileType, q.WellFormed := by
  unfold insert
  unfold HasRoom at hroom
  split_ifs at hroom ⊢ with hfree
  · simpa using wellFormed_new hn.lt hn.pos hn.le hroom h.aligned
  have haligned : 4 ∣ r.recLen - r.used := Nat.dvd_sub h.aligned (Nat.dvd_mul_left 4 _)
  simpa using ⟨h.shrink hfree, wellFormed_new hn.lt hn.pos hn.le hroom haligned⟩

lemma live?_new (hn : Bindable name newInode) (len : ℕ) :
    (new newInode len fileType name).live? = some ⟨name, newInode, fileType⟩ := by
  rw [live?, name_new hn.le]
  exact if_neg hn.ne

lemma live_insert (hn : Bindable name newInode) :
    live (r.insert name newInode fileType) = r.live?.toList ++ [⟨name, newInode, fileType⟩] := by
  unfold insert
  split_ifs with hfree
  · have hnone : r.live? = none := if_pos hfree
    simp [live?_new hn, hnone]
  have hshrink : r.shrink.live? = r.live? := by
    simp only [live?, name_shrink]
    rfl
  simp [live?_new hn, hshrink]

end insert

end Record

/-! ### The row of records -/

section append

variable {name : List UInt8} {newInode : ℕ} {fileType : UInt8}

/-- A record that the scan passes by. -/
def Passed (name : List UInt8) (r : Record) : Prop := ¬ r.Binds name ∧ ¬ r.HasRoom name.length

/-- **What the scan does**: it passes by all records, stops at the name, or takes a record with
room. -/
lemma appendRecords_cases (rs : List Record) :
    (appendRecords name newInode fileType rs = .ok none ∧ ∀ r ∈ rs, Passed name r) ∨
    ∃ pre r post, rs = pre ++ r :: post ∧ (∀ q ∈ pre, Passed name q) ∧
      (appendRecords name newInode fileType rs = .error .unsupported ∧ r.Binds name ∨
       appendRecords name newInode fileType rs =
          .ok (some (pre ++ r.insert name newInode fileType ++ post)) ∧
        ¬ r.Binds name ∧ r.HasRoom name.length) := by
  induction rs with
  | nil => exact .inl ⟨rfl, by simp⟩
  | cons r rs ih =>
    by_cases hbinds : r.Binds name
    · refine .inr ⟨[], r, rs, rfl, by simp, .inl ⟨?_, hbinds⟩⟩
      rw [appendRecords, if_neg hbinds.1, if_pos hbinds.2]
    by_cases hroom : r.HasRoom name.length
    · refine .inr ⟨[], r, rs, rfl, by simp, .inr ⟨?_, hbinds, hroom⟩⟩
      unfold Record.HasRoom at hroom
      unfold appendRecords Record.insert
      split_ifs at hroom ⊢ with hfree hname
      · rfl
      · exact absurd ⟨hfree, hname⟩ hbinds
      · rfl
    have hpass : Passed name r := ⟨hbinds, hroom⟩
    have hstep : appendRecords name newInode fileType (r :: rs) =
        (appendRecords name newInode fileType rs).map (Option.map (r :: ·)) := by
      unfold Record.HasRoom at hroom
      rw [appendRecords]
      split_ifs at hroom ⊢ with hfree hname
      · rfl
      · exact absurd ⟨hfree, hname⟩ hbinds
      · rfl
    rw [hstep]
    rcases ih with ⟨hnone, hall⟩ | ⟨pre, q, post, rfl, hpre, hstop⟩
    · exact .inl ⟨by rw [hnone]; rfl, by simpa using ⟨hpass, hall⟩⟩
    refine .inr ⟨r :: pre, q, post, rfl, by simpa using ⟨hpass, hpre⟩, ?_⟩
    rcases hstop with ⟨herror, hq⟩ | ⟨hok, hq⟩
    · exact .inl ⟨by rw [herror]; rfl, hq⟩
    · exact .inr ⟨by rw [hok]; rfl, hq⟩

end append

/-! ### Blocks -/

/-- The records that an entry may stand in: all but the tail. -/
def slots (c : DirContext) (rs : List Record) : List Record :=
  if c.seed.isSome then rs.dropLast else rs

namespace Block

variable {c : DirContext} {post : List Record}

/-- The tail holds the checksum of what stands before it. -/
def Checksummed (b : Block c) : Prop :=
  ∀ seed, c.seed = some seed → ∃ init, b.records = init ++ [Record.tail seed c init]

lemma live_slots (b : Block c) : live (slots c b.records) = live b.records := by
  unfold slots
  split_ifs with hseed
  · obtain ⟨init, t, hrecords, ht⟩ := b.tailed hseed
    simp [hrecords, live?, ht.free]
  · rfl

def sealed (c : DirContext) (seed : UInt32) (init : List Record) (hinit : ∀ r ∈ init, r.WellFormed)
    (hsize : size init = tailOffset) : Block c where
  records := init ++ [Record.tail seed c init]
  tiled := by
    refine ⟨fun r hr => ?_, by simp [hsize, tailOffset, blockSize]⟩
    rcases List.mem_append.mp hr with hr | hr
    · exact hinit r hr
    rw [List.mem_singleton.mp hr]
    exact Record.wellFormed_tail seed c init
  tailed _ := ⟨init, _, rfl, Record.isTail_tail seed c init⟩

lemma checksummed_sealed {seed : UInt32} (hseed : c.seed = some seed) {init : List Record}
    (hinit : ∀ r ∈ init, r.WellFormed) (hsize : size init = tailOffset) :
    (sealed c seed init hinit hsize).Checksummed := by
  intro seed' hseed'
  obtain rfl := Option.some.inj (hseed.symm.trans hseed')
  exact ⟨init, rfl⟩

lemma exists_refreshed {rs : List Record} (h : Tiled rs)
    (htail : c.seed.isSome → ∃ init t, rs = init ++ [t] ∧ t.recLen = 12) :
    ∃ b : Block c, refreshDirblockChecksum c (layout rs) = .ok (layout b.records) ∧
      b.Checksummed ∧ slots c b.records = slots c rs := by
  rcases hseed : c.seed with _ | seed
  · refine ⟨⟨rs, h, by simp [hseed]⟩, by simp [refreshDirblockChecksum, hseed], ?_, rfl⟩
    intro seed hsome
    simp [hseed] at hsome
  obtain ⟨init, t, rfl, hlen⟩ := htail (by simp [hseed])
  have hinit (r : Record) (hr : r ∈ init) : r.WellFormed := h.wellFormed r (by simp [hr])
  have hsize : size init = tailOffset := by
    have hfull := h.full
    have hblock : blockSize = tailOffset + 12 := rfl
    simp only [size_append, size_cons, size_nil, hlen] at hfull
    omega
  obtain ⟨old, hold, hensure⟩ :=
    ensureDirblockChecksumTail_layout hinit (h.wellFormed t (by simp)) hlen hsize
  exact ⟨sealed c seed init hinit hsize,
    refreshDirblockChecksum_of_ensure c hseed hold hsize hensure,
    checksummed_sealed hseed hinit hsize, by simp [slots, sealed, hseed]⟩

lemma exists_edited {front : List Record} (htiled : Tiled (front ++ post))
    (hpost : c.seed.isSome → ∃ post' t, post = post' ++ [t] ∧ t.IsTail) :
    ∃ b' : Block c, refreshDirblockChecksum c (layout (front ++ post)) = .ok (layout b'.records) ∧
      b'.Checksummed ∧ live b'.records = live front ++ live post := by
  obtain ⟨b', hrefresh, hsum, hslots⟩ := exists_refreshed htiled (by
    intro hseed
    obtain ⟨post', t, rfl, ht⟩ := hpost hseed
    exact ⟨front ++ post', t, (append_assoc ..).symm, ht.recLen⟩)
  refine ⟨b', hrefresh, hsum, ?_⟩
  rw [← b'.live_slots, hslots, slots]
  split_ifs with hseed
  · obtain ⟨post', t, rfl, ht⟩ := hpost hseed
    have hnone : t.live? = none := if_pos ht.free
    rw [← append_assoc, dropLast_concat]
    simp [hnone]
  · rw [live_append]

/-- Behind a record there is a tail, or the record is the tail. -/
lemma tail_behind (b : Block c) {pre : List Record} {r : Record}
    (hrecords : b.records = pre ++ r :: post) (hseed : c.seed.isSome) :
    post = [] ∧ r.IsTail ∨ ∃ post' t, post = post' ++ [t] ∧ t.IsTail := by
  obtain ⟨init, t, hinit, ht⟩ := b.tailed hseed
  rcases eq_nil_or_concat post with rfl | ⟨post', t', rfl⟩
  · have heq := (append_inj' (hrecords.symm.trans hinit) rfl).2
    exact .inl ⟨rfl, by rwa [singleton_inj.mp heq]⟩
  rw [concat_eq_append] at hrecords ⊢
  have hshape : pre ++ r :: (post' ++ [t']) = (pre ++ r :: post') ++ [t'] := by simp
  have heq := (append_inj' ((hshape.symm.trans hrecords.symm).trans hinit) rfl).2
  exact .inr ⟨post', t', rfl, by rwa [singleton_inj.mp heq]⟩

section append

variable {name : List UInt8} {newInode : ℕ} {fileType : UInt8}

lemma appendIn_records (b : Block c) (hle : name.length ≤ 255) (newInode : ℕ) (fileType : UInt8) :
    appendIn name newInode fileType (layout b.records) blockSize 0 =
      (appendRecords name newInode fileType b.records).map (Option.map layout) := by
  have hlen := length_le_size b.tiled.wellFormed
  rw [b.tiled.full] at hlen
  exact appendIn_layout hle [] b.records b.tiled.wellFormed (by simpa using b.tiled.full) blockSize
    (by omega)

lemma tiled_insert {pre post : List Record} {r : Record} (h : Tiled (pre ++ r :: post))
    (hroom : r.HasRoom name.length) (hn : Bindable name newInode) :
    Tiled (pre ++ r.insert name newInode fileType ++ post) := by
  have hr := h.wellFormed r (by simp)
  refine ⟨fun q hq => ?_, ?_⟩
  · simp only [mem_append] at hq
    rcases hq with (hq | hq) | hq
    · exact h.wellFormed q (by simp [hq])
    · exact wellFormed_insert hr hroom hn q hq
    · exact h.wellFormed q (by simp [hq])
  · have hfull := h.full
    simp only [size_append, size_cons, size_insert hr hroom] at hfull ⊢
    omega

/-- The entry is put into record `r`. It is lost if that is the tail. -/
structure Inserts (b b' : Block c) (e : LiveEntry) (pre : List Record) (r : Record)
    (post : List Record) : Prop where
  checksummed : b'.Checksummed
  unbound : ¬ r.Binds e.name
  room : r.HasRoom e.name.length
  lost : c.seed.isSome → post = [] → live b'.records = live b.records
  kept : (c.seed.isSome → post ≠ []) → (live b'.records).Perm (e :: live b.records)

lemma append_cases (b : Block c) (hn : Bindable name newInode) :
    (appendBlock c name newInode fileType (layout b.records) = .ok none ∧
      ∀ r ∈ b.records, Passed name r) ∨
    ∃ pre r post, b.records = pre ++ r :: post ∧ (∀ q ∈ pre, Passed name q) ∧
      (appendBlock c name newInode fileType (layout b.records) = .error .unsupported ∧
          r.Binds name ∨
        ∃ b' : Block c, appendBlock c name newInode fileType (layout b.records) =
            .ok (some (layout b'.records)) ∧
          b.Inserts b' ⟨name, newInode, fileType⟩ pre r post) := by
  have hscan := b.appendIn_records hn.le newInode fileType
  rcases appendRecords_cases b.records with ⟨hnone, hall⟩ | ⟨pre, r, post, hrecords, hpre, hstop⟩
  · exact .inl ⟨by rw [appendBlock, hscan, hnone]; rfl, hall⟩
  refine .inr ⟨pre, r, post, hrecords, hpre, ?_⟩
  rcases hstop with ⟨herror, hbinds⟩ | ⟨hok, hbinds, hroom⟩
  · exact .inl ⟨by rw [appendBlock, hscan, herror]; rfl, hbinds⟩
  have htiled : Tiled (pre ++ r.insert name newInode fileType ++ post) :=
    tiled_insert (hrecords ▸ b.tiled) hroom hn
  have hdone {b' : Block c} (hrefresh : refreshDirblockChecksum c
      (layout (pre ++ r.insert name newInode fileType ++ post)) = .ok (layout b'.records)) :
      appendBlock c name newInode fileType (layout b.records) = .ok (some (layout b'.records)) := by
    rw [appendBlock, hscan, hok]
    simp only [Except.map, Option.map_some, ok_bind, hrefresh, pure_eq_ok]
  by_cases hlost : c.seed.isSome ∧ post = []
  · -- the entry is written over the tail, and the tail over the entry
    obtain ⟨hseed, rfl⟩ := hlost
    have ht := ((b.tail_behind hrecords hseed).resolve_right (by simp)).2
    have hfits := hroom
    rw [Record.HasRoom, if_pos ht.free, ht.recLen] at hfits
    have hinsert : r.insert name newInode fileType = [new newInode 12 fileType name] :=
      ht.recLen ▸ if_pos ht.free
    obtain ⟨b', hrefresh, hsum, hslots⟩ := exists_refreshed (c := c) htiled fun _ =>
      ⟨pre, _, by rw [hinsert, append_nil],
        recLen_new newInode fileType ((eight_le_sizeFor _).trans hfits)⟩
    refine .inr ⟨b', hdone hrefresh, hsum, hbinds, hroom, fun _ _ => ?_, fun hc =>
      absurd rfl (hc hseed)⟩
    rw [← b'.live_slots, hslots, ← b.live_slots, hrecords, hinsert]
    simp [slots, hseed]
  · obtain ⟨b', hrefresh, hsum, hlive⟩ := exists_edited htiled fun hseed =>
      (b.tail_behind hrecords hseed).resolve_left fun h => hlost ⟨hseed, h.1⟩
    refine .inr ⟨b', hdone hrefresh, hsum, hbinds, hroom,
      fun hseed hpost => absurd ⟨hseed, hpost⟩ hlost, fun _ => ?_⟩
    rw [hlive, hrecords]
    simp only [live_append, live_cons, live_insert hn]
    rw [← append_assoc (live pre), ← append_assoc (live pre), append_assoc, singleton_append]
    exact perm_middle

lemma passed_of_append (b : Block c) (hn : Bindable name newInode)
    (hnone : appendBlock c name newInode fileType (layout b.records) = .ok none) :
    ∀ r ∈ b.records, Passed name r := by
  rcases b.append_cases hn with
    ⟨-, hall⟩ | ⟨pre, r, post, -, -, ⟨herror, -⟩ | ⟨b', hok, -⟩⟩
  · exact hall
  · cases hnone.symm.trans herror
  · cases hnone.symm.trans hok

lemma hasRoom_tail {t : Record} (ht : t.IsTail) {n : ℕ} : t.HasRoom n ↔ n ≤ 4 := by
  unfold Record.HasRoom sizeFor
  rw [if_pos ht.free, ht.recLen]
  omega

lemma exists_new (c : DirContext) (fileType : UInt8) (hn : Bindable name newInode) :
    ∃ b : Block c, refreshDirblockChecksum c
        (new newInode blockSize fileType name).bytes = .ok (layout b.records) ∧
      b.Checksummed ∧ live b.records = [⟨name, newInode, fileType⟩] := by
  have hblock : blockSize = 4096 := rfl
  have htail : tailOffset = 4084 := rfl
  have hfits : sizeFor name.length ≤ tailOffset := by
    have := hn.le
    unfold sizeFor
    omega
  have hwf (len : ℕ) (hlen : tailOffset ≤ len) (hdvd : 4 ∣ len) :
      (new newInode len fileType name).WellFormed :=
    wellFormed_new hn.lt hn.pos hn.le (by omega) hdvd
  have hlen (len : ℕ) (hlen : tailOffset ≤ len) :
      (new newInode len fileType name).recLen = len :=
    recLen_new newInode fileType ((eight_le_sizeFor _).trans (by omega))
  rcases hseed : c.seed with _ | seed
  · refine ⟨⟨[new newInode blockSize fileType name], ⟨?_, ?_⟩, by simp [hseed]⟩, ?_, ?_, ?_⟩
    · simpa using hwf blockSize (by omega) (by decide)
    · simpa using hlen blockSize (by omega)
    · simp [refreshDirblockChecksum, hseed]
    · intro seed hsome
      simp [hseed] at hsome
    · simp [live?_new hn]
  have hinit : ∀ r ∈ [new newInode tailOffset fileType name], r.WellFormed := by
    simpa using hwf tailOffset le_rfl (by decide)
  have hsize : size [new newInode tailOffset fileType name] = tailOffset := by
    simpa using hlen tailOffset le_rfl
  have hnone (rs : List Record) : (tail seed c rs).live? = none := if_pos rfl
  refine ⟨sealed c seed _ hinit hsize, ?_, checksummed_sealed hseed hinit hsize, ?_⟩
  · have hrefresh : refreshDirblockChecksum c
        (layout [new newInode blockSize fileType name]) = _ :=
      refreshDirblockChecksum_new c hseed hn.pos hn.le hn.lt
    rwa [layout_cons, layout_nil, append_nil] at hrefresh
  · simp [sealed, live?_new hn, hnone]

end append

end Block

/-! ### Directories -/

namespace TiledDir

variable {D : TiledDir} {name : List UInt8} {newInode : ℕ} {fileType : UInt8} {c : DirContext}
  {rows : List (Option (ℕ × Block c))} {r : Record}

def rowRecords {c : DirContext} : Option (ℕ × Block c) → List Record
  | none => []
  | some (_, b) => b.records

def records (D : TiledDir) : List Record := D.rows.flatMap rowRecords

def Checksummed (D : TiledDir) : Prop := ∀ phys b, some (phys, b) ∈ D.rows → b.Checksummed

/-- The scan takes the tail of the first block: the name is short enough for it, and no record
before it has room. -/
def LandsOnTail (D : TiledDir) (name : List UInt8) : Prop :=
  D.context.seed.isSome ∧ name.length ≤ 4 ∧ ∃ pre phys b post, D.Has pre phys b post ∧
    (∀ row ∈ pre, row = none) ∧ ∀ r ∈ b.records.dropLast, ¬ r.HasRoom name.length

lemma mem_rowRecords :
    r ∈ rows.flatMap rowRecords ↔ ∃ phys b, some (phys, b) ∈ rows ∧ r ∈ b.records := by
  simp only [mem_flatMap]
  constructor
  · rintro ⟨_ | ⟨phys, b⟩, hrow, hr⟩
    · cases hr
    · exact ⟨phys, b, hrow, hr⟩
  · rintro ⟨phys, b, hrow, hr⟩
    exact ⟨some (phys, b), hrow, hr⟩

variable {pre post : List (Option (ℕ × Block D.context))} {b b' : Block D.context} {phys block : ℕ}
  {e : LiveEntry}

section

variable (h : D.Has pre phys b post)

include h

lemma Has.records : D.records = pre.flatMap rowRecords ++ b.records ++ post.flatMap rowRecords := by
  rw [TiledDir.records, h.rows]
  simp [rowRecords]

lemma Has.mem_homes : phys ∈ D.homes := by
  rw [TiledDir.homes, h.rows]
  simp

lemma Has.checksummed_set (hsum : D.Checksummed) (hb : b'.Checksummed) :
    (h.set b').Checksummed := by
  intro phys' b₀ hmem
  rcases mem_append.mp hmem with hpre | hmem
  · exact hsum phys' b₀ (by rw [h.rows]; exact mem_append_left _ hpre)
  rcases mem_cons.mp hmem with heq | hpost
  · have hsame : b₀ = b' := (Prod.mk.inj (Option.some.inj heq)).2
    rw [hsame]
    exact hb
  · exact hsum phys' b₀ (by rw [h.rows]; exact mem_append_right _ (.tail _ hpost))

end

/-- The block that an entry is put into. -/
structure Inserts (D : TiledDir) (e : LiveEntry) (pre : List (Option (ℕ × Block D.context)))
    (phys : ℕ) (b : Block D.context) (post : List (Option (ℕ × Block D.context)))
    (b' : Block D.context) (rpre : List Record) (r : Record) (rpost : List Record) : Prop where
  has : D.Has pre phys b post
  split : b.records = rpre ++ r :: rpost
  passed : ∀ q ∈ pre.flatMap rowRecords ++ rpre, Passed e.name q
  inserts : b.Inserts b' e rpre r rpost

lemma planAppendDirEntryAfterImage_cases (hdir : D.isDir) (hlinear : D.isHtreeIndexed = false)
    (hn : Bindable name newInode) :
    (D.toDir.planAppendDirEntryAfterImage name newInode fileType = .error .outOfBounds ∧
      ∀ r ∈ D.records, Passed name r) ∨
    (D.toDir.planAppendDirEntryAfterImage name newInode fileType = .error .unsupported ∧
      ∃ pre r post, D.records = pre ++ r :: post ∧ (∀ q ∈ pre, Passed name q) ∧ r.Binds name) ∨
    ∃ pre phys b post b' rpre r rpost,
      D.toDir.planAppendDirEntryAfterImage name newInode fileType =
        .ok (phys, layout b.records, layout b'.records) ∧
      D.Inserts ⟨name, newInode, fileType⟩ pre phys b post b' rpre r rpost := by
  have hplan : D.toDir.planAppendDirEntryAfterImage name newInode fileType =
      Dir.firstIn (appendBlock D.context name newInode fileType)
        (D.rows.map (Option.map fun b => (b.1, layout b.2.records))) := by
    rw [Dir.planAppendDirEntryAfterImage, if_neg (not_lt.mpr hn.le),
      if_neg (by simp [toDir, hdir, hlinear])]
    rfl
  have hpassed {rows : List (Option (ℕ × Block D.context))}
      (h : ∀ q b, some (q, b) ∈ rows →
        appendBlock D.context name newInode fileType (layout b.records) = .ok none) :
      ∀ r ∈ rows.flatMap rowRecords, Passed name r := by
    intro r hr
    obtain ⟨phys, b, hrow, hr⟩ := mem_rowRecords.mp hr
    exact b.passed_of_append hn (h phys b hrow) r hr
  rw [hplan]
  rcases hfirst : Dir.firstIn (appendBlock D.context name newInode fileType)
    (D.rows.map (Option.map fun b => (b.1, layout b.2.records))) with e | ⟨phys, before, after⟩
  · rcases of_firstIn_error hfirst with ⟨rfl, hnone⟩ | ⟨pre, phys, b, post, hrows, hscan, hnone⟩
    · exact .inl ⟨hfirst, hpassed hnone⟩
    have has : D.Has pre phys b post := ⟨hrows⟩
    rcases b.append_cases hn with
      ⟨hok, -⟩ | ⟨rpre, r, rpost, hsplit, hrpre, ⟨herror, hbinds⟩ | ⟨b', hok, -⟩⟩
    · cases hscan.symm.trans hok
    · obtain rfl := Except.error.inj (hscan.symm.trans herror)
      refine .inr (.inl ⟨hfirst, pre.flatMap rowRecords ++ rpre, r,
        rpost ++ post.flatMap rowRecords, ?_, ?_, hbinds⟩)
      · rw [has.records, hsplit]
        simp
      · exact forall_mem_append.mpr ⟨hpassed hnone, hrpre⟩
    · cases hscan.symm.trans hok
  · obtain ⟨pre, b, post, hrows, rfl, hscan, hnone⟩ := of_firstIn_ok hfirst
    rcases b.append_cases hn with
      ⟨hok, -⟩ | ⟨rpre, r, rpost, hsplit, hrpre, ⟨herror, hbinds⟩ | ⟨b', hok, hinserts⟩⟩
    · cases hscan.symm.trans hok
    · cases hscan.symm.trans herror
    obtain rfl := Option.some.inj (Except.ok.inj (hscan.symm.trans hok))
    exact .inr (.inr ⟨pre, phys, b, post, b', rpre, r, rpost, hfirst, ⟨hrows⟩, hsplit,
      forall_mem_append.mpr ⟨hpassed hnone, hrpre⟩, hinserts⟩)

/-! ### The tail of the first block -/

lemma eq_none_of_passed (hseed : c.seed.isSome) (hshort : name.length ≤ 4)
    (h : ∀ r ∈ rows.flatMap rowRecords, Passed name r) :
    ∀ row ∈ rows, row = none := by
  rintro (_ | ⟨phys, b⟩) hrow
  · rfl
  obtain ⟨init, t, hrecords, ht⟩ := b.tailed hseed
  have hmem : t ∈ rows.flatMap rowRecords :=
    mem_rowRecords.mpr ⟨phys, b, hrow, by simp [hrecords]⟩
  exact absurd ((hasRoom_tail ht).mpr hshort) (h t hmem).2

lemma Has.first_unique {pre' post' : List (Option (ℕ × Block D.context))} {phys' : ℕ}
    (h : D.Has pre phys b post) (h' : D.Has pre' phys' b' post') (hpre : ∀ row ∈ pre, row = none)
    (hpre' : ∀ row ∈ pre', row = none) : b = b' := by
  have hnone {l : List (Option (ℕ × Block D.context))} (hl : ∀ row ∈ l, row = none) :
      l.filterMap (fun row => row) = [] := by
    rw [filterMap_eq_nil_iff]
    exact hl
  have heq := congrArg (fun l => (l.filterMap fun row => row).head?) (h.rows.symm.trans h'.rows)
  simp only [filterMap_append, hnone hpre, hnone hpre', nil_append,
    filterMap_cons, head?_cons, Option.some.injEq, Prod.mk.injEq] at heq
  exact heq.2

lemma Inserts.landsOnTail_iff {rpre rpost : List Record}
    (h : D.Inserts e pre phys b post b' rpre r rpost) :
    D.LandsOnTail e.name ↔ D.context.seed.isSome ∧ rpost = [] := by
  have hfirst (hseed : D.context.seed.isSome) (hshort : e.name.length ≤ 4) :
      ∀ row ∈ pre, row = none :=
    eq_none_of_passed hseed hshort fun q hq => h.passed q (mem_append_left _ hq)
  constructor
  · rintro ⟨hseed, hshort, pre', phys', b₀, post', has', hnone', hfull⟩
    obtain rfl := has'.first_unique h.has hnone' (hfirst hseed hshort)
    refine ⟨hseed, ?_⟩
    by_contra hpost
    refine hfull r ?_ h.inserts.room
    rw [h.split, dropLast_append_of_ne_nil (by simp), dropLast_cons_of_ne_nil hpost]
    simp
  · rintro ⟨hseed, rfl⟩
    have ht := ((b.tail_behind h.split hseed).resolve_right (by simp)).2
    have hshort := (hasRoom_tail ht).mp h.inserts.room
    refine ⟨hseed, hshort, pre, phys, b, post, h.has, hfirst hseed hshort, fun q hq => ?_⟩
    rw [h.split, dropLast_concat] at hq
    exact (h.passed q (mem_append_right _ hq)).2

/-! ### Growth -/

def grow (D : TiledDir) (block : ℕ) (hfresh : block ∉ D.homes) (b : Block D.context) : TiledDir :=
  { D with
    size := D.size + blockSize
    rows := D.rows ++ [some (block, b)]
    nodup := by
      rw [List.filterMap_append]
      refine List.nodup_append.mpr ⟨D.nodup, by simp, ?_⟩
      rintro q hq q' hq' rfl
      simp only [List.filterMap_cons, Option.map_some, List.filterMap_nil, List.mem_singleton]
        at hq'
      exact hfresh (hq' ▸ hq) }

lemma checksummed_grow (hfresh : block ∉ D.homes) (hsum : D.Checksummed) (hb : b.Checksummed) :
    (D.grow block hfresh b).Checksummed := by
  intro phys b₀ hmem
  rcases mem_append.mp hmem with hold | hnew
  · exact hsum phys b₀ hold
  have hsame : b₀ = b := (Prod.mk.inj (Option.some.inj (mem_singleton.mp hnew))).2
  rw [hsame]
  exact hb

/-! ### Insertion -/

/-- What the insertion of an entry does. -/
structure Appended (D : TiledDir) (e : LiveEntry) (D' : TiledDir) : Prop where
  checksummed : D.Checksummed → D'.Checksummed
  lost : D.LandsOnTail e.name → D'.live = D.live
  kept : ¬ D.LandsOnTail e.name → D'.live.Perm (e :: D.live)
  -- the records that the scan saw
  seen : (∀ r ∈ D.records, Passed e.name r) ∨
    ∃ pre r post, D.records = pre ++ r :: post ∧ (∀ q ∈ pre, Passed e.name q) ∧
      ¬ r.Binds e.name ∧ r.HasRoom e.name.length

lemma Inserts.appended {rpre rpost : List Record}
    (h : D.Inserts e pre phys b post b' rpre r rpost) : D.Appended e (h.has.set b') where
  checksummed hsum := h.has.checksummed_set hsum h.inserts.checksummed
  lost hlands := by
    obtain ⟨hseed, hpost⟩ := h.landsOnTail_iff.mp hlands
    rw [h.has.live_set, h.inserts.lost hseed hpost, h.has.live]
  kept hlands := by
    have hperm := h.inserts.kept fun hseed hpost => hlands (h.landsOnTail_iff.mpr ⟨hseed, hpost⟩)
    rw [h.has.live_set, h.has.live]
    calc pre.flatMap rowLive ++ Directory.live b'.records ++ post.flatMap rowLive
        _ ~ pre.flatMap rowLive ++ e :: Directory.live b.records ++ post.flatMap rowLive :=
          (hperm.append_left _).append_right _
        _ ~ e :: (pre.flatMap rowLive ++ Directory.live b.records ++ post.flatMap rowLive) := by
          rw [append_assoc, append_assoc]
          exact perm_middle
  seen := by
    refine .inr ⟨pre.flatMap rowRecords ++ rpre, r, rpost ++ post.flatMap rowRecords, ?_, h.passed,
      h.inserts.unbound, h.inserts.room⟩
    rw [h.has.records, h.split]
    simp

/-- **Insertion**: a plan that succeeds yields a tiled directory, and writes no other block. -/
lemma exists_appended (hdir : D.isDir) (hlinear : D.isHtreeIndexed = false)
    (hn : Bindable name newInode) {writePage : Result ℕ}
    (hfresh : ∀ block, writePage = .ok block → block ∉ D.homes) {plan : DirPlan}
    (hplan : D.toDir.planAppendDirEntryMutation name newInode fileType writePage = .ok plan) :
    ∃ D' : TiledDir, D'.toDir = D.toDir.apply plan ∧
      D.Appended ⟨name, newInode, fileType⟩ D' ∧ ∀ p ∈ plan.blocks, p.1 ∈ D.homes := by
  rw [Dir.planAppendDirEntryMutation] at hplan
  rcases planAppendDirEntryAfterImage_cases hdir hlinear hn with
    ⟨hafter, hall⟩ | ⟨hafter, -⟩ | ⟨pre, phys, b, post, b', rpre, r, rpost, hafter, hinserts⟩
  · rw [hafter] at hplan
    simp only at hplan
    split_ifs at hplan
    obtain ⟨b, hrefresh, hsum, hlive⟩ :=
      exists_new D.context fileType hn
    have hblock : blockSize = 4096 := rfl
    have hencode : encodeDirEntry newInode blockSize fileType name (replicate blockSize 0) =
        .ok (new newInode blockSize fileType name).bytes :=
      encodeDirEntry_eq hn.le (by simp) (by have := hn.le; omega)
    rw [hencode, ok_bind, toDir, hrefresh, ok_bind, bind_eq_ok] at hplan
    obtain ⟨block, hwrite, hplan⟩ := hplan
    obtain rfl := Except.ok.inj hplan
    refine ⟨D.grow block (hfresh block hwrite) b, by simp [grow, toDir, Dir.apply, Dir.grow],
      ⟨fun h => checksummed_grow _ h hsum, fun hlands => ?_, fun _ => ?_, .inl hall⟩, by simp⟩
    · obtain ⟨hseed, hshort, pre, phys, b₀, post, has, -⟩ := hlands
      have hmem : some (phys, b₀) ∈ D.rows := by simp [has.rows]
      cases eq_none_of_passed hseed hshort hall _ hmem
    · simp only [grow, live, rowLive, flatMap_append, flatMap_singleton, hlive]
      exact perm_append_singleton _ _
  · rw [hafter] at hplan
    cases hplan
  · rw [hafter] at hplan
    obtain rfl := Except.ok.inj hplan
    exact ⟨hinserts.has.set b', (hinserts.has.stage b').symm, hinserts.appended,
      by simpa using hinserts.has.mem_homes⟩

lemma mem_of_split {pre post pre' post' : List Record} {r' : Record}
    (h : pre ++ r :: post = pre' ++ r' :: post') : r ∈ pre' ∨ r' ∈ pre ++ [r] := by
  rcases append_eq_append_iff.mp h with ⟨l, rfl, hl⟩ | ⟨l, rfl, hl⟩
  · rcases l with _ | ⟨q, l⟩
    · exact .inr (by simp [(cons.inj hl).1])
    · exact .inl (by simp [(cons.inj hl).1])
  · rcases l with _ | ⟨q, l⟩
    · exact .inr (by simp [(cons.inj hl).1])
    · exact .inr (by simp [(cons.inj hl).1])

lemma exists_plan (hdir : D.isDir) (hlinear : D.isHtreeIndexed = false)
    (hn : Bindable name newInode) (writePage : Result ℕ) {pre post : List Record}
    (hsplit : D.records = pre ++ r :: post) (hroom : r.HasRoom name.length)
    (hunbound : ∀ q ∈ pre ++ [r], ¬ q.Binds name) :
    ∃ plan, D.toDir.planAppendDirEntryMutation name newInode fileType writePage = .ok plan := by
  rw [Dir.planAppendDirEntryMutation]
  rcases planAppendDirEntryAfterImage_cases hdir hlinear hn with
    ⟨-, hall⟩ | ⟨-, pre', r', post', hsplit', hpassed, hbinds⟩ |
      ⟨pre', phys, b, post', b', rpre, r', rpost, hafter, -⟩
  · exact absurd hroom (hall r (by simp [hsplit])).2
  · rcases mem_of_split (hsplit.symm.trans hsplit') with hr | hr'
    · exact absurd hroom (hpassed r hr).2
    · exact absurd hbinds (hunbound r' hr')
  · exact ⟨_, by rw [hafter]⟩

/-- **An entry is inserted unless it lands on a tail**: in a linear directory, a plan that succeeds
adds the entry and changes no other, with all blocks tiled and their tails intact, if and only if
the scan does not take the tail of the first block. -/
theorem append_entry_iff (D : TiledDir) (hdir : D.isDir) (hlinear : D.isHtreeIndexed = false)
    (name : List UInt8) (hname : 0 < name.length) (hle : name.length ≤ 255)
    (newInode : ℕ) (hinode : newInode ≠ 0) (hlt : newInode < 2 ^ 32) (fileType : UInt8)
    (writePage : Result ℕ) (hfresh : ∀ block, writePage = .ok block → block ∉ D.homes)
    (plan : DirPlan)
    (hplan : D.toDir.planAppendDirEntryMutation name newInode fileType writePage = .ok plan) :
    ∃ D' : TiledDir, D'.toDir = D.toDir.apply plan ∧
      Dir.liveEntries (D.toDir.apply plan).pages = .ok D'.live ∧
      (D.Checksummed → D'.Checksummed) ∧
      (D'.live.Perm (⟨name, newInode, fileType⟩ :: D.live) ↔ ¬ D.LandsOnTail name) := by
  obtain ⟨D', hD', happended, -⟩ :=
    exists_appended hdir hlinear ⟨hname, hle, hinode, hlt⟩ hfresh hplan
  refine ⟨D', hD', by rw [← hD', liveEntries_toDir], happended.checksummed, fun hperm hlands => ?_,
    happended.kept⟩
  have hlen := hperm.length_eq
  rw [happended.lost hlands, List.length_cons] at hlen
  omega

lemma fresh_of_notMem (h : block ∉ D.homes) :
    ∀ q, (.ok block : Result ℕ) = .ok q → q ∉ D.homes := by
  rintro q ⟨⟩
  exact h

def dot : Record := Record.new 2 tailOffset 2 [46]

lemma recLen_dot : dot.recLen = tailOffset := recLen_new 2 2 (by decide)

lemma hasRoom_dot : dot.HasRoom 1 := by
  have hlive : dot.inode ≠ 0 := by decide
  rw [Record.HasRoom, if_neg hlive, recLen_dot]
  decide

lemma wellFormed_dot : ∀ r ∈ [dot], r.WellFormed := by
  intro r hr
  rw [mem_singleton.mp hr]
  exact wellFormed_new (by decide) (by decide) (by decide) (by decide) (by decide)

lemma size_dot : Directory.size [dot] = tailOffset := by
  rw [size_cons, recLen_dot, size_nil, Nat.add_zero]

def dotDir : TiledDir where
  context := ⟨some 0, 2, 0⟩
  isDir := true
  isHtreeIndexed := false
  size := blockSize
  rows := [some (9, Block.sealed _ 0 [dot] wellFormed_dot size_dot)]
  nodup := List.nodup_cons.mpr ⟨List.not_mem_nil, List.nodup_nil⟩

theorem append_entry_dotDir : ∃ (plan : DirPlan) (D' : TiledDir),
    dotDir.toDir.planAppendDirEntryMutation [120] 12 1 (.ok 10) = .ok plan ∧
      D'.toDir = dotDir.toDir.apply plan ∧ D'.live.Perm (⟨[120], 12, 1⟩ :: dotDir.live) := by
  have hexists : ∃ plan, dotDir.toDir.planAppendDirEntryMutation [120] 12 1 (.ok 10) =
    .ok plan := by
    refine exists_plan rfl rfl ⟨by decide, by decide, by decide, by decide⟩ (.ok 10)
      (show _ = [] ++ dot :: [tail 0 ⟨some 0, 2, 0⟩ [dot]] from rfl) hasRoom_dot ?_
    intro q hq hbinds
    rw [List.mem_singleton.mp hq] at hbinds
    exact absurd hbinds.2 (by decide)
  obtain ⟨plan, hplan⟩ := hexists
  have hfresh := fresh_of_notMem (show 10 ∉ dotDir.homes by simp [homes, dotDir])
  obtain ⟨D', hD', -, -, hiff⟩ := append_entry_iff dotDir rfl rfl [120] (by decide) (by decide) 12
    (by decide) (by decide) 1 (.ok 10) hfresh plan hplan
  refine ⟨plan, D', hplan, hD', hiff.mpr ?_⟩
  rintro ⟨-, -, pre, phys, b, post, has, hpre, hfull⟩
  have hfirst : dotDir.Has [] 9 _ [] := ⟨rfl⟩
  obtain rfl := hfirst.first_unique has (by simp) hpre
  exact hfull dot (.head _) hasRoom_dot

/-! ### A full block with a tail -/

def tight (inode : ℕ) (name : List UInt8) : Record :=
  Record.new inode (Record.sizeFor name.length) 1 name

section tight

variable {inode : ℕ}

lemma recLen_tight : (tight inode name).recLen = sizeFor name.length :=
  recLen_new inode 1 (eight_le_sizeFor name.length)

lemma not_hasRoom_tight (hinode : inode ≠ 0) (hle : name.length ≤ 255) (n : ℕ) :
    ¬ (tight inode name).HasRoom n := by
  have hused : (tight inode name).used = sizeFor name.length := by
    have : (UInt8.ofNat name.length).toNat = name.length := by
      rw [UInt8.toNat_ofNat']
      omega
    exact congrArg sizeFor this
  have hsize := eight_le_sizeFor n
  have hlive : (tight inode name).inode ≠ 0 := hinode
  rw [Record.HasRoom, if_neg hlive, recLen_tight, hused]
  omega

end tight

def fullNames : List (List UInt8) :=
  (List.range 15).map (fun i => List.replicate 255 (UInt8.ofNat (97 + i))) ++
    [List.replicate 116 112]

def fullRecords : List Record := fullNames.map (tight 11)

lemma length_fullNames : ∀ name ∈ fullNames, name.length = 255 ∨ name.length = 116 := by
  intro name hmem
  simp only [fullNames, mem_append, mem_map, mem_singleton] at hmem
  rcases hmem with ⟨i, -, rfl⟩ | rfl
  · exact .inl (length_replicate ..)
  · exact .inr (length_replicate ..)

lemma wellFormed_fullRecords : ∀ r ∈ fullRecords, r.WellFormed := by
  intro r hr
  obtain ⟨name, hname, rfl⟩ := mem_map.mp hr
  have hlen := length_fullNames name hname
  exact wellFormed_new (by decide) (by omega) (by omega) le_rfl (Nat.dvd_mul_left 4 _)

lemma size_fullRecords : Directory.size fullRecords = tailOffset := by
  have hlen : fullNames.map List.length = List.replicate 15 255 ++ [116] := by
    simp only [fullNames, List.map_append, List.map_map, comp_def, List.length_replicate,
      List.map_const', List.length_range, List.map_cons, List.map_nil]
  have hsum : Directory.size fullRecords = ((fullNames.map List.length).map sizeFor).sum := by
    simp [Directory.size, fullRecords, comp_def, recLen_tight]
  rw [hsum, hlen]
  rfl

def fullDir : TiledDir where
  context := ⟨some 0, 2, 0⟩
  isDir := true
  isHtreeIndexed := false
  size := blockSize
  rows := [some (9, Block.sealed _ 0 fullRecords wellFormed_fullRecords size_fullRecords)]
  nodup := List.nodup_cons.mpr ⟨List.not_mem_nil, List.nodup_nil⟩

lemma records_fullDir : fullDir.records =
    fullRecords ++ tail 0 ⟨some 0, 2, 0⟩ fullRecords :: [] := by
  simp [records, rowRecords, fullDir, sealed]

lemma not_binds_fullDir (hname : name.length ≤ 4) : ∀ r ∈ fullDir.records, ¬ r.Binds name := by
  rw [records_fullDir]
  intro r hr hbinds
  rcases mem_append.mp hr with hr | hr
  · obtain ⟨other, hother, rfl⟩ := mem_map.mp hr
    have hlen := length_fullNames other hother
    have hsame : other = name := (name_new (by omega)).symm.trans hbinds.2
    rw [hsame] at hlen
    omega
  · rw [mem_singleton.mp hr] at hbinds
    exact hbinds.1 rfl

lemma landsOnTail_fullDir (hname : name.length ≤ 4) : fullDir.LandsOnTail name := by
  refine ⟨rfl, hname, [], 9, _, [], ⟨rfl⟩, by simp, fun r hr => ?_⟩
  have hr : r ∈ (fullRecords ++ [tail 0 ⟨some 0, 2, 0⟩ fullRecords]).dropLast := hr
  rw [dropLast_concat] at hr
  obtain ⟨other, hother, rfl⟩ := mem_map.mp hr
  have hlen := length_fullNames other hother
  exact not_hasRoom_tight (by decide) (by omega) _

lemma exists_plan_fullDir :
    ∃ plan, fullDir.toDir.planAppendDirEntryMutation [120] 12 1 (.ok 10) = .ok plan := by
  have htail := isTail_tail 0 ⟨some 0, 2, 0⟩ fullRecords
  refine exists_plan rfl rfl ⟨by decide, by decide, by decide, by decide⟩ (.ok 10)
    records_fullDir ((hasRoom_tail htail).mpr (by decide)) ?_
  rw [← records_fullDir]
  exact not_binds_fullDir (by decide)

lemma fresh_fullDir : ∀ block, (.ok 10 : Result ℕ) = .ok block → block ∉ fullDir.homes :=
  fresh_of_notMem (by simp [homes, fullDir])

/-- A name of one byte is written over the tail of the full block, and the tail over the name. -/
theorem short_entry_lost : ∃ (plan : DirPlan) (D' : TiledDir),
    fullDir.toDir.planAppendDirEntryMutation [120] 12 1 (.ok 10) = .ok plan ∧
      D'.toDir = fullDir.toDir.apply plan ∧ (∀ r ∈ fullDir.records, ¬ r.Binds [120]) ∧
      D'.live = fullDir.live := by
  obtain ⟨plan, hplan⟩ := exists_plan_fullDir
  obtain ⟨D', hD', happended, -⟩ := exists_appended rfl rfl
    ⟨by decide, by decide, by decide, by decide⟩ fresh_fullDir hplan
  exact ⟨plan, D', hplan, hD', not_binds_fullDir (by decide),
    happended.lost (landsOnTail_fullDir (by decide))⟩

end TiledDir

end TxKernel.Ext4.Directory
