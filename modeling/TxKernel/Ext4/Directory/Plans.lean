import Mathlib.Data.List.Perm.Basic
import TxKernel.Ext4.Directory.Edits

/-!
The directory plans: which block an entry is inserted into, removed from or replaced in. A directory
is given by its pages in order, each a hole or a block with its bytes. Of the write planner, and of
the edits of inodes, descriptors and bitmaps, only the outcome is modelled.
-/

namespace TxKernel.Ext4.Directory

open Bytes List

structure Dir where
  context : DirContext
  isDir : Bool
  isHtreeIndexed : Bool
  size : ℕ
  pages : List (Option (ℕ × List UInt8))

/-- After-images of directory blocks, and a block that the directory grows by. -/
structure DirPlan where
  blocks : List (ℕ × List UInt8)
  grown : Option (ℕ × List UInt8)
  deriving DecidableEq

inductive InodeKind where
  | file
  | dir
  | other
  deriving DecidableEq

def InodeKind.fileType : InodeKind → Result UInt8
  | .file => .ok 1
  | .dir => .ok 2
  | .other => .error .unsupported

structure LiveEntry where
  name : List UInt8
  inode : ℕ
  fileType : UInt8
  deriving DecidableEq

/-! ### Edits of a block -/

section edits

variable (c : DirContext) (name : List UInt8)

def appendBlock (newInode : ℕ) (fileType : UInt8) (before : List UInt8) :
    Result (Option (List UInt8)) := do
  match ← appendIn name newInode fileType before blockSize 0 with
  | some after => return some (← refreshDirblockChecksum c after)
  | none => return none

def removeBlock (before : List UInt8) : Result (Option (ℕ × List UInt8)) := do
  match ← removeIn name before blockSize none 0 with
  | some (inode, after) => return some (inode, ← refreshDirblockChecksum c after)
  | none => return none

def replaceBlock (expected replacement : ℕ) (before : List UInt8) :
    Result (Option (List UInt8)) := do
  match ← replaceIn name expected replacement before blockSize 0 with
  | some after => return some (← refreshDirblockChecksum c after)
  | none => return none

end edits

namespace Dir

/-! ### Scans over the pages -/

/-- Edit the first block in which `scan` finds something to edit. -/
def firstIn {α : Type} (scan : List UInt8 → Result (Option α)) :
    List (Option (ℕ × List UInt8)) → Result (ℕ × List UInt8 × α)
  | [] => .error .outOfBounds
  | none :: pages => firstIn scan pages
  | some (phys, before) :: pages => do
    match ← scan before with
    | some found => return (phys, before, found)
    | none => firstIn scan pages

variable (d : Dir)

def planAppendDirEntryAfterImage (name : List UInt8) (newInode : ℕ) (fileType : UInt8) :
    Result (ℕ × List UInt8 × List UInt8) :=
  if 255 < name.length then .error .outOfBounds
  else if !d.isDir || d.isHtreeIndexed then .error .unsupported
  else firstIn (appendBlock d.context name newInode fileType) d.pages

/-- Insert the entry, in a new block if no block has room. `writePage` is the block that the write
planner allocates for the new page, or its error. -/
def planAppendDirEntryMutation (name : List UInt8) (newInode : ℕ) (fileType : UInt8)
    (writePage : Result ℕ) : Result DirPlan :=
  match d.planAppendDirEntryAfterImage name newInode fileType with
  | .ok (home, _, after) => .ok ⟨[(home, after)], none⟩
  | .error .outOfBounds =>
    if 255 < name.length then .error .outOfBounds
    else if !d.isDir || d.isHtreeIndexed then .error .unsupported
    else if d.size % blockSize ≠ 0 then .error .corrupt
    else do
      let page ← encodeDirEntry newInode blockSize fileType name (List.replicate blockSize 0)
      let page ← refreshDirblockChecksum d.context page
      let block ← writePage
      return ⟨[], some (block, page)⟩
  | .error e => .error e

def planRemoveDirEntryAfterImage (name : List UInt8) :
    Result (ℕ × ℕ × List UInt8 × List UInt8) := do
  let (phys, before, inode, after) ← firstIn (removeBlock d.context name) d.pages
  return (inode, phys, before, after)

def planReplaceDirEntryInodeAfterImage (name : List UInt8) (expected replacement : ℕ) :
    Result (ℕ × List UInt8 × List UInt8) :=
  if !d.isDir || d.isHtreeIndexed then .error .unsupported
  else firstIn (replaceBlock d.context name expected replacement) d.pages

/-! ### Application -/

def stage (home : ℕ) (after : List UInt8) : Dir :=
  { d with pages := d.pages.map (Option.map fun p => if p.1 = home then (home, after) else p) }

def grow (block : ℕ) (page : List UInt8) : Dir :=
  { d with size := d.size + blockSize, pages := d.pages ++ [some (block, page)] }

def apply (plan : DirPlan) : Dir :=
  let d := plan.blocks.foldl (fun d b => d.stage b.1 b.2) d
  match plan.grown with
  | none => d
  | some (block, page) => d.grow block page

/-! ### Creation -/

/-- Allocate an inode and insert an entry for it. `inodes` is what becomes of the edits of the
inodes, the counts and a new directory's first block. -/
def planCreate (fileType : UInt8) (name : List UInt8) (allocation writePage : Result ℕ)
    (inodes : Result Unit) : Result (ℕ × DirPlan) := do
  let newIno ← allocation
  let plan ← d.planAppendDirEntryMutation name newIno fileType writePage
  inodes
  return (newIno, plan)

def planCreateRegularFile (name : List UInt8) (allocation writePage : Result ℕ)
    (inodes : Result Unit) : Result (ℕ × DirPlan) :=
  d.planCreate 1 name allocation writePage inodes

def planCreateDirectory (name : List UInt8) (allocation writePage : Result ℕ)
    (inodes : Result Unit) : Result (ℕ × DirPlan) :=
  d.planCreate 2 name allocation writePage inodes

def planLinkDirEntry (name : List UInt8) (target : ℕ) (writePage : Result ℕ)
    (inodes : Result Unit) : Result DirPlan := do
  let plan ← d.planAppendDirEntryMutation name target 1 writePage
  inodes
  return plan

/-! ### Removal and rename -/

def planRemoval (name : List UInt8) (target : ℕ) (inodes : Result Unit) : Result DirPlan := do
  let (found, home, _, after) ← d.planRemoveDirEntryAfterImage name
  if found ≠ target then throw .corrupt
  inodes
  return ⟨[(home, after)], none⟩

def planUnlinkDirEntry (name : List UInt8) (target : ℕ) (inodes : Result Unit) : Result DirPlan :=
  d.planRemoval name target inodes

def planRmdirDirEntry (name : List UInt8) (target : ℕ) (inodes : Result Unit) : Result DirPlan :=
  d.planRemoval name target inodes

def pairBlocks (oldHome : ℕ) (oldAfter : List UInt8) (newHome : ℕ)
    (newBefore newAfter : List UInt8) : Result DirPlan :=
  if oldHome = newHome then
    if crc32c 0 oldAfter ≠ crc32c 0 newBefore then .error .corrupt
    else .ok ⟨[(oldHome, newAfter)], none⟩
  else .ok ⟨[(oldHome, oldAfter), (newHome, newAfter)], none⟩

def planRenameDirEntry (oldName newName : List UInt8) (target : ℕ) (kind : Result InodeKind) :
    Result DirPlan :=
  if oldName = [] ∨ newName = [] ∨ 255 < newName.length then .error .outOfBounds
  else do
    let fileType ← (← kind).fileType
    let (found, oldHome, _, oldAfter) ← d.planRemoveDirEntryAfterImage oldName
    if found ≠ target then throw .corrupt
    let (newHome, newBefore, newAfter) ←
      (d.stage oldHome oldAfter).planAppendDirEntryAfterImage newName target fileType
    pairBlocks oldHome oldAfter newHome newBefore newAfter

/-- The plan for the blocks of both directories, which have none in common, and for the growth of
the new one. -/
def planCrossDirRenameDirEntry (oldName : List UInt8) (newDir : Dir) (newName : List UInt8)
    (target : ℕ) (kind : Result InodeKind) (writePage : Result ℕ) : Result DirPlan :=
  if d.context.inode = newDir.context.inode then .error .unsupported
  else do
    if (← kind) ≠ .file then throw .unsupported
    let (found, oldHome, _, oldAfter) ← d.planRemoveDirEntryAfterImage oldName
    if found ≠ target then throw .corrupt
    let append ← newDir.planAppendDirEntryMutation newName target 1 writePage
    return ⟨(oldHome, oldAfter) :: append.blocks, append.grown⟩

def planRenameOverwriteDirEntry (oldName newName : List UInt8) (oldIno overwrittenIno : ℕ)
    (inodes : Result Unit) : Result DirPlan :=
  if oldIno = overwrittenIno then .error .unsupported
  else do
    let (found, oldHome, _, oldAfter) ← d.planRemoveDirEntryAfterImage oldName
    if found ≠ oldIno then throw .corrupt
    let (newHome, newBefore, newAfter) ←
      (d.stage oldHome oldAfter).planReplaceDirEntryInodeAfterImage newName overwrittenIno oldIno
    inodes
    pairBlocks oldHome oldAfter newHome newBefore newAfter

lemma stage_stage (home : ℕ) (after after' : List UInt8) :
    (d.stage home after).stage home after' = d.stage home after' := by
  simp only [stage, map_map]
  congr 1
  refine map_congr_left fun page _ => ?_
  rcases page with _ | ⟨q, bytes⟩
  · rfl
  · by_cases hq : q = home <;> simp [hq]

lemma apply_pairBlocks {oldHome newHome : ℕ} {oldAfter newBefore newAfter : List UInt8}
    {plan : DirPlan} (h : pairBlocks oldHome oldAfter newHome newBefore newAfter = .ok plan) :
    d.apply plan = (d.stage oldHome oldAfter).stage newHome newAfter := by
  unfold pairBlocks at h
  split_ifs at h with hsame hcrc
  · obtain rfl := Except.ok.inj h
    rw [← hsame, stage_stage]
    rfl
  · obtain rfl := Except.ok.inj h
    rfl

def liveEntries : List (Option (ℕ × List UInt8)) → Result (List LiveEntry)
  | [] => .ok []
  | none :: pages => liveEntries pages
  | some (_, page) :: pages => do
    let found ← dirEntries page
    let rest ← liveEntries pages
    return found.map (fun e => ⟨e.name, e.inode, e.fileType⟩) ++ rest

end Dir

/-! ### Tiled directories -/

namespace Record

def live? (r : Record) : Option LiveEntry :=
  if r.inode = 0 then none else some ⟨r.name, r.inode, r.fileType⟩

structure IsTail (r : Record) : Prop where
  free : r.inode = 0
  recLen : r.recLen = 12
  nameLen : r.nameLen = 0
  fileType : r.fileType = dirCsumType

lemma isTail_tail (seed : UInt32) (c : DirContext) (rs : List Record) : (tail seed c rs).IsTail :=
  ⟨rfl, recLen_tail seed c rs, rfl, rfl⟩

end Record

def live (rs : List Record) : List LiveEntry := rs.filterMap Record.live?

@[simp] lemma live_nil : live [] = [] := rfl

@[simp] lemma live_cons (r : Record) (rs : List Record) :
    live (r :: rs) = r.live?.toList ++ live rs := by
  cases h : r.live? <;> simp [live, h]

@[simp] lemma live_append (rs rs' : List Record) : live (rs ++ rs') = live rs ++ live rs' := by
  simp [live]

lemma map_entries (rs : List Record) :
    (entries rs).map (fun e => (⟨e.name, e.inode, e.fileType⟩ : LiveEntry)) = live rs := by
  simp only [entries, live, map_filterMap]
  congr 1
  funext r
  simp only [Record.entry?, Record.live?]
  split_ifs <;> rfl

/-- A block that is tiled by records, with a tail if metadata is checksummed. -/
structure Block (c : DirContext) where
  records : List Record
  tiled : Tiled records
  tailed : c.seed.isSome → ∃ init t, records = init ++ [t] ∧ t.IsTail

/-- A directory whose blocks are tiled; no two of its pages are the same block. -/
structure TiledDir where
  context : DirContext
  isDir : Bool
  isHtreeIndexed : Bool
  size : ℕ
  rows : List (Option (ℕ × Block context))
  nodup : (rows.filterMap (Option.map Prod.fst)).Nodup

namespace TiledDir

variable (D : TiledDir) {c : DirContext}

def homes : List ℕ := D.rows.filterMap (Option.map Prod.fst)

def toDir : Dir where
  context := D.context
  isDir := D.isDir
  isHtreeIndexed := D.isHtreeIndexed
  size := D.size
  pages := D.rows.map (Option.map fun b => (b.1, layout b.2.records))

def rowLive {c : DirContext} : Option (ℕ × Block c) → List LiveEntry
  | none => []
  | some (_, b) => Directory.live b.records

def live : List LiveEntry := D.rows.flatMap rowLive

lemma liveEntries_rows (rows : List (Option (ℕ × Block c))) :
    Dir.liveEntries (rows.map (Option.map fun b => (b.1, layout b.2.records))) =
      .ok (rows.flatMap rowLive) := by
  induction rows with
  | nil => rfl
  | cons row rows ih =>
    rcases row with _ | ⟨phys, b⟩
    · simpa [Dir.liveEntries, rowLive] using ih
    rw [List.map_cons, Option.map_some, Dir.liveEntries, b.tiled.dirEntries]
    simp only [ok_bind, ih, map_entries, rowLive, List.flatMap_cons]
    rfl

lemma liveEntries_toDir : Dir.liveEntries D.toDir.pages = .ok D.live := liveEntries_rows D.rows

/-! ### Scans over tiled pages -/

section scans

variable {α : Type} {scan : List UInt8 → Result (Option α)} {c : DirContext}
  {rows : List (Option (ℕ × Block c))}

lemma mem_of_firstIn {pages : List (Option (ℕ × List UInt8))} {phys : ℕ} {before : List UInt8}
    {found : α} (h : Dir.firstIn scan pages = .ok (phys, before, found)) :
    some (phys, before) ∈ pages := by
  induction pages with
  | nil => cases h
  | cons page pages ih =>
    rcases page with _ | ⟨q, p⟩
    · exact .tail _ (ih h)
    simp only [Dir.firstIn, bind_eq_ok] at h
    obtain ⟨answer, -, hanswer⟩ := h
    cases answer with
    | none => exact .tail _ (ih hanswer)
    | some a =>
      cases hanswer
      exact .head _

lemma of_firstIn_ok {phys : ℕ} {before : List UInt8} {found : α}
    (h : Dir.firstIn scan (rows.map (Option.map fun b => (b.1, layout b.2.records))) =
      .ok (phys, before, found)) :
    ∃ pre b post, rows = pre ++ some (phys, b) :: post ∧ before = layout b.records ∧
      scan before = .ok (some found) ∧
      ∀ q b', some (q, b') ∈ pre → scan (layout b'.records) = .ok none := by
  induction rows with
  | nil => cases h
  | cons row rows ih =>
    rcases row with _ | ⟨q, b⟩
    · obtain ⟨pre, b, post, hrows, hrest⟩ := ih h
      refine ⟨none :: pre, b, post, by rw [hrows, cons_append], hrest.1, hrest.2.1, ?_⟩
      simpa using hrest.2.2
    simp only [List.map_cons, Option.map_some, Dir.firstIn, bind_eq_ok] at h
    obtain ⟨answer, hscan, hanswer⟩ := h
    rcases answer with _ | answer
    · obtain ⟨pre, b', post, hrows, hbefore, hfound, hnone⟩ := ih hanswer
      refine ⟨some (q, b) :: pre, b', post, by rw [hrows, cons_append], hbefore, hfound, ?_⟩
      intro q' b'' hmem
      rcases mem_cons.mp hmem with heq | hmem
      · obtain ⟨rfl, rfl⟩ := Prod.mk.inj (Option.some.inj heq)
        exact hscan
      · exact hnone q' b'' hmem
    · obtain ⟨rfl, hrest⟩ := Prod.mk.inj (Except.ok.inj hanswer)
      obtain ⟨rfl, rfl⟩ := Prod.mk.inj hrest
      exact ⟨[], b, rows, rfl, rfl, hscan, by simp⟩

lemma of_firstIn_error {e : Ext4FormatError}
    (h : Dir.firstIn scan (rows.map (Option.map fun b => (b.1, layout b.2.records))) = .error e) :
    (e = .outOfBounds ∧ ∀ q b, some (q, b) ∈ rows → scan (layout b.records) = .ok none) ∨
      ∃ pre q b post, rows = pre ++ some (q, b) :: post ∧ scan (layout b.records) = .error e ∧
        ∀ q b', some (q, b') ∈ pre → scan (layout b'.records) = .ok none := by
  induction rows with
  | nil =>
    obtain rfl := Except.error.inj h
    exact .inl ⟨rfl, by simp⟩
  | cons row rows ih =>
    rcases row with _ | ⟨q, b⟩
    · rcases ih h with ⟨rfl, hnone⟩ | ⟨pre, q, b, post, hrows, hscan, hnone⟩
      · exact .inl ⟨rfl, by simpa using hnone⟩
      exact .inr ⟨none :: pre, q, b, post, by rw [hrows, cons_append], hscan,
        by simpa using hnone⟩
    rw [List.map_cons, Option.map_some, Dir.firstIn] at h
    rcases hscan : scan (layout b.records) with e' | _ | answer <;>
      simp only [hscan, ok_bind, error_bind] at h
    · obtain rfl := Except.error.inj h
      exact .inr ⟨[], q, b, rows, rfl, hscan, by simp⟩
    · have hcons {l : List (Option (ℕ × Block c))}
          (hl : ∀ q b', some (q, b') ∈ l → scan (layout b'.records) = .ok none) (q' : ℕ)
          (b' : Block c) (hmem : some (q', b') ∈ some (q, b) :: l) :
          scan (layout b'.records) = .ok none := by
        rcases mem_cons.mp hmem with heq | hmem
        · obtain ⟨rfl, rfl⟩ := Prod.mk.inj (Option.some.inj heq)
          exact hscan
        · exact hl q' b' hmem
      rcases ih h with ⟨rfl, hnone⟩ | ⟨pre, q', b', post, hrows, hscan', hnone⟩
      · exact .inl ⟨rfl, hcons hnone⟩
      exact .inr ⟨some (q, b) :: pre, q', b', post, by rw [hrows, cons_append], hscan',
        hcons hnone⟩
    · cases h

end scans

/-! ### One block of a directory -/

structure Has (pre : List (Option (ℕ × Block D.context))) (phys : ℕ) (b : Block D.context)
    (post : List (Option (ℕ × Block D.context))) : Prop where
  rows : D.rows = pre ++ some (phys, b) :: post

variable {D} {pre post : List (Option (ℕ × Block D.context))} {phys : ℕ} {b : Block D.context}

def Has.set (h : D.Has pre phys b post) (b' : Block D.context) : TiledDir :=
  { D with
    rows := pre ++ some (phys, b') :: post
    nodup := by
      have := D.nodup
      rw [h.rows] at this
      simpa using this }

lemma Has.live (h : D.Has pre phys b post) :
    D.live = pre.flatMap rowLive ++ Directory.live b.records ++ post.flatMap rowLive := by
  rw [TiledDir.live, h.rows]
  simp [rowLive]

lemma Has.live_set (h : D.Has pre phys b post) (b' : Block D.context) :
    (h.set b').live =
      pre.flatMap rowLive ++ Directory.live b'.records ++ post.flatMap rowLive := by
  simp [Has.set, TiledDir.live, rowLive]

lemma stage_map {rows : List (Option (ℕ × Block c))}
    (h : phys ∉ rows.filterMap (Option.map Prod.fst)) (after : List UInt8) :
    (rows.map (Option.map fun b => (b.1, layout b.2.records))).map
        (Option.map fun p => if p.1 = phys then (phys, after) else p) =
      rows.map (Option.map fun b => (b.1, layout b.2.records)) := by
  induction rows with
  | nil => rfl
  | cons row rows ih =>
    rcases row with _ | ⟨q, b⟩
    · simpa using ih (by simpa using h)
    simp only [filterMap_cons, Option.map_some, mem_cons, not_or] at h
    have hne : q ≠ phys := fun heq => h.1 heq.symm
    rw [List.map_cons, List.map_cons, ih h.2]
    simp [hne]

lemma Has.stage (h : D.Has pre phys b post) (b' : Block D.context) :
    D.toDir.stage phys (layout b'.records) = (h.set b').toDir := by
  have hnodup := D.nodup
  rw [h.rows] at hnodup
  simp only [List.filterMap_append, List.filterMap_cons, Option.map_some] at hnodup
  obtain ⟨-, hpost, hdisj⟩ := List.nodup_append.mp hnodup
  have hpre : phys ∉ pre.filterMap (Option.map Prod.fst) := fun hmem =>
    hdisj phys hmem phys (.head _) rfl
  simp only [Dir.stage, toDir, Has.set, h.rows, List.map_append, List.map_cons, Option.map_some,
    if_true, stage_map hpre, stage_map (List.nodup_cons.mp hpost).1]

end TiledDir

end TxKernel.Ext4.Directory
