import Mathlib.Data.List.Nodup
import TxKernel.Ext4.Directory.Removal

/-!
What the removal and rename plans do to the entries of a directory. A rename inserts as a create
does, so that a short name can be lost in the tail of a full block; the old name is gone all the
same.
-/

namespace TxKernel.Ext4.Directory

open Bytes List Dir Record
open scoped List

namespace TiledDir

variable {D : TiledDir} {e f : LiveEntry} {D' : TiledDir}

/-! ### Entries without a name -/

def others (D : TiledDir) (name : List UInt8) : List LiveEntry :=
  D.live.filter fun e => e.name ≠ name

/-- All names are distinct. -/
def Distinct (D : TiledDir) : Prop := (D.live.map LiveEntry.name).Nodup

lemma filter_ne_of_nodup {pre post : List LiveEntry}
    (h : ((pre ++ e :: post).map LiveEntry.name).Nodup) :
    (pre ++ e :: post).filter (fun x => x.name ≠ e.name) = pre ++ post := by
  rw [List.map_append, List.map_cons, List.nodup_middle, List.nodup_cons, ← List.map_append] at h
  have hall : (pre ++ post).filter (fun x => x.name ≠ e.name) = pre ++ post := by
    rw [List.filter_eq_self]
    intro x hx
    have hne : x.name ≠ e.name := fun hxe => h.1 (hxe ▸ mem_map_of_mem hx)
    simpa using hne
  simpa using hall

lemma Edited.live_eq_others (h : D.Edited e [] D') (hD : D.Distinct) :
    D'.live = D.others e.name := by
  obtain ⟨pre, post, hlive, hlive'⟩ := h.live
  unfold Distinct at hD
  rw [hlive] at hD
  rw [hlive', others, hlive, filter_ne_of_nodup hD, append_nil]

lemma cons_perm_cons_iff {l : List LiveEntry} : (e :: l).Perm (f :: l) ↔ e = f := by
  constructor
  · intro h
    by_contra hne
    have hcount := h.count_eq e
    rw [count_cons_self, count_cons_of_ne (Ne.symm hne)] at hcount
    omega
  · rintro rfl
    exact .refl _

/-! ### The plans -/

def RemovedBy (D : TiledDir) (name : List UInt8) (D' : TiledDir) : Prop :=
  ∃ inode home before after,
    D.toDir.planRemoveDirEntryAfterImage name = .ok (inode, home, before, after) ∧
      D'.toDir = D.toDir.stage home after

variable {name : List UInt8} {plan : DirPlan} {oldName newName : List UInt8} {fileType : UInt8}

variable {writePage : Result ℕ} {newInode : ℕ} {target : ℕ} {inodes : Result Unit} {home inode : ℕ}
  {kind : Result InodeKind}

lemma exists_of_planRemoval (h : D.toDir.planRemoval name target inodes = .ok plan) :
    ∃ (D' : TiledDir) (e : LiveEntry), D'.toDir = D.toDir.apply plan ∧ D.Edited e [] D' ∧
      e.name = name ∧ e.inode = target := by
  simp only [planRemoval, bind_eq_ok, check_eq_ok] at h
  obtain ⟨⟨found, home, before, after⟩, hremove, hfound, -, -, hplan⟩ := h
  obtain ⟨D', e, hD', hedited, hname, hinode, -⟩ := exists_removed hremove
  obtain rfl := Except.ok.inj hplan
  exact ⟨D', e, hD', hedited, hname, hinode.trans (not_not.mp hfound)⟩

lemma exists_appended_image (hdir : D.isDir) (hlinear : D.isHtreeIndexed = false)
    (hn : Bindable name newInode) {before after : List UInt8}
    (h : D.toDir.planAppendDirEntryAfterImage name newInode fileType = .ok (home, before, after)) :
    ∃ D' : TiledDir, D'.toDir = D.toDir.stage home after ∧
      D.Appended ⟨name, newInode, fileType⟩ D' := by
  rcases planAppendDirEntryAfterImage_cases hdir hlinear hn with
    ⟨hafter, -⟩ | ⟨hafter, -⟩ | ⟨pre, phys, b, post, b', rpre, r, rpost, hafter, hinserts⟩
  · cases h.symm.trans hafter
  · cases h.symm.trans hafter
  obtain ⟨rfl, -, rfl⟩ : home = phys ∧ before = layout b.records ∧ after = layout b'.records := by
    simpa using h.symm.trans hafter
  exact ⟨hinserts.has.set b', (hinserts.has.stage b').symm, hinserts.appended⟩

lemma exists_of_planRename (hdir : D.isDir) (hlinear : D.isHtreeIndexed = false)
    (h : D.toDir.planRenameDirEntry oldName newName target kind = .ok plan) :
    ∃ (D₁ D' : TiledDir) (e : LiveEntry) (fileType : UInt8),
      (kind >>= InodeKind.fileType) = .ok fileType ∧ D.RemovedBy oldName D₁ ∧ D.Edited e [] D₁ ∧
      e.name = oldName ∧ e.inode = target ∧ D'.toDir = D.toDir.apply plan ∧
      D₁.Appended ⟨newName, target, fileType⟩ D' := by
  unfold planRenameDirEntry at h
  split_ifs at h with hnames
  simp only [bind_eq_ok, check_eq_ok] at h
  obtain ⟨k, hkind, fileType, htype, ⟨found, oldHome, before, oldAfter⟩, hremove, hfound,
    ⟨newHome, newBefore, newAfter⟩, happend, hpair⟩ := h
  obtain ⟨D₁, e, hD₁, hedited, hname, hinode, -⟩ := exists_removed hremove
  have htarget := hinode.trans (not_not.mp hfound)
  have hlive := inode_of_mem_live hedited.mem
  rw [htarget] at hlive
  rw [← hD₁] at happend
  obtain ⟨D', hD', happended⟩ := exists_appended_image (hedited.shape.isDir.trans hdir)
    (hedited.shape.isHtreeIndexed.trans hlinear)
    ⟨length_pos_of_ne_nil fun hnil => hnames (.inr (.inl hnil)),
      not_lt.mp fun hlong => hnames (.inr (.inr hlong)), hlive.1, hlive.2⟩ happend
  refine ⟨D₁, D', e, fileType, by rw [hkind]; exact htype, ⟨_, _, _, _, hremove, hD₁⟩, hedited,
    hname, htarget, ?_, happended⟩
  rw [D.toDir.apply_pairBlocks hpair, hD', hD₁]

lemma exists_of_planRenameOverwrite {oldIno overwrittenIno : ℕ}
    (h : D.toDir.planRenameOverwriteDirEntry oldName newName oldIno overwrittenIno inodes =
      .ok plan) :
    ∃ (D₁ D' : TiledDir) (e f : LiveEntry), D.Edited e [] D₁ ∧ e.name = oldName ∧ e.inode = oldIno ∧
      D₁.Edited f [{ f with inode := oldIno }] D' ∧ f.name = newName ∧ f.inode = overwrittenIno ∧
      D'.toDir = D.toDir.apply plan := by
  unfold planRenameOverwriteDirEntry at h
  split_ifs at h
  simp only [bind_eq_ok, check_eq_ok] at h
  obtain ⟨⟨found, oldHome, before, oldAfter⟩, hremove, hfound, ⟨newHome, newBefore, newAfter⟩,
    hreplace, -, -, hpair⟩ := h
  obtain ⟨D₁, e, hD₁, hedited, hname, hinode, -⟩ := exists_removed hremove
  have hold := hinode.trans (not_not.mp hfound)
  have hlive := inode_of_mem_live hedited.mem
  rw [hold] at hlive
  rw [← hD₁] at hreplace
  obtain ⟨D', f, hD', hedited', hname', hinode'⟩ := exists_replaced hlive.1 hlive.2 hreplace
  refine ⟨D₁, D', e, f, hedited, hname, hold, hedited', hname', hinode', ?_⟩
  rw [D.toDir.apply_pairBlocks hpair, hD', hD₁]

/-! ### Two directories -/

lemma stage_of_notMem (h : home ∉ D.homes) (after : List UInt8) :
    D.toDir.stage home after = D.toDir := by
  simp only [stage, toDir, stage_map h]

lemma foldl_stage_of_notMem {blocks : List (ℕ × List UInt8)} (h : ∀ p ∈ blocks, p.1 ∉ D.homes) :
    blocks.foldl (fun d p => d.stage p.1 p.2) D.toDir = D.toDir := by
  induction blocks with
  | nil => rfl
  | cons p blocks ih =>
    rw [foldl_cons, stage_of_notMem (h p (.head _))]
    exact ih fun q hq => h q (.tail _ hq)

lemma length_le_of_append {d : Dir}
    (h : d.planAppendDirEntryMutation name newInode fileType writePage = .ok plan) :
    name.length ≤ 255 := by
  by_contra hlong
  simp only [planAppendDirEntryMutation, planAppendDirEntryAfterImage,
    if_pos (not_le.mp hlong)] at h
  cases h

lemma exists_of_planCrossDirRename {E : TiledDir} (hdir : E.isDir)
    (hlinear : E.isHtreeIndexed = false) (hdisjoint : D.homes.Disjoint E.homes)
    (hname : 0 < newName.length) (hfresh : ∀ block, writePage = .ok block → block ∉ E.homes)
    (h : D.toDir.planCrossDirRenameDirEntry oldName E.toDir newName target kind writePage =
      .ok plan) :
    ∃ (D' E' : TiledDir) (e : LiveEntry), D.Edited e [] D' ∧ e.name = oldName ∧ e.inode = target ∧
      D'.toDir = D.toDir.apply ⟨plan.blocks, none⟩ ∧ E'.toDir = E.toDir.apply plan ∧
      E.Appended ⟨newName, target, 1⟩ E' := by
  unfold planCrossDirRenameDirEntry at h
  split_ifs at h
  simp only [bind_eq_ok, check_eq_ok] at h
  obtain ⟨k, -, -, ⟨found, oldHome, before, oldAfter⟩, hremove, hfound, append, happend, hplan⟩ := h
  obtain rfl := Except.ok.inj hplan
  obtain ⟨D', e, hD', hedited, hold, hinode, hhome⟩ := exists_removed hremove
  have htarget := hinode.trans (not_not.mp hfound)
  have hlive := inode_of_mem_live hedited.mem
  rw [htarget] at hlive
  obtain ⟨E', hE', happended, hblocks⟩ := exists_appended hdir hlinear
    ⟨hname, length_le_of_append happend, hlive.1, hlive.2⟩ hfresh happend
  refine ⟨D', E', e, hedited, hold, htarget, ?_, ?_, happended⟩
  · have hother : ∀ p ∈ append.blocks, p.1 ∉ D'.homes := by
      rw [hedited.shape.homes]
      exact fun p hp hmem => hdisjoint hmem (hblocks p hp)
    rw [← foldl_stage_of_notMem hother, hD']
    rfl
  · have hold : E.toDir.stage oldHome oldAfter = E.toDir :=
      stage_of_notMem (fun hmem => hdisjoint hhome hmem) oldAfter
    rw [hE', apply, apply, foldl_cons, hold]

/-! ### Removal and rename -/

lemma Appended.perm_iff (h : D.Appended ⟨name, inode, fileType⟩ D') (otherType : UInt8) :
    D'.live.Perm (⟨name, inode, otherType⟩ :: D.live) ↔
      fileType = otherType ∧ ¬ D.LandsOnTail name := by
  by_cases hlands : D.LandsOnTail name
  · refine iff_of_false (fun hperm => ?_) fun hc => hc.2 hlands
    have hlen := hperm.length_eq
    rw [h.lost hlands, length_cons] at hlen
    omega
  have hkept := h.kept hlands
  constructor
  · intro hperm
    have hsame := cons_perm_cons_iff.mp (hkept.symm.trans hperm)
    exact ⟨congrArg LiveEntry.fileType hsame, hlands⟩
  · rintro ⟨rfl, -⟩
    exact hkept

lemma overwrite_perm_iff {D₁ : TiledDir} (hD : D.Distinct) (h : D.Edited e [] D₁)
    (h' : D₁.Edited f [{ f with inode := inode }] D') (otherType : UInt8) :
    D'.live.Perm (⟨f.name, inode, otherType⟩ ::
        (D.others e.name).filter fun x => x.name ≠ f.name) ↔ f.fileType = otherType := by
  obtain ⟨pre, post, hlive, hlive'⟩ := h'.live
  have hothers := h.live_eq_others hD
  have hdistinct : ((pre ++ f :: post).map LiveEntry.name).Nodup := by
    rw [← hlive, hothers]
    exact hD.sublist ((filter_sublist).map _)
  rw [← hothers, hlive, filter_ne_of_nodup hdistinct, hlive', append_assoc, singleton_append]
  have hmiddle : (pre ++ { f with inode := inode } :: post) ~ ({ f with inode := inode } ::
      (pre ++ post)) := perm_middle
  constructor
  · intro hperm
    have hsame := cons_perm_cons_iff.mp (hmiddle.symm.trans hperm)
    exact congrArg LiveEntry.fileType hsame
  · rintro rfl
    exact hmiddle

/-- **Removal and rename**: in a linear directory with distinct names, an unlink or rmdir removes
the entry and no other. A rename moves the binding if and only if the type byte is that of the inode
and the new entry does not land on a tail, an overwriting one if and only if both entries have the
same type byte. -/
theorem removal_and_rename_iff (D : TiledDir) (hdir : D.isDir) (hlinear : D.isHtreeIndexed = false)
    (hD : D.Distinct) :
    (∀ name target inodes plan, (D.toDir.planUnlinkDirEntry name target inodes = .ok plan ∨
        D.toDir.planRmdirDirEntry name target inodes = .ok plan) →
      ∃ (D' : TiledDir) (fileType : UInt8), D'.toDir = D.toDir.apply plan ∧
        ⟨name, target, fileType⟩ ∈ D.live ∧ D'.live = D.others name ∧
        (D.Checksummed → D'.Checksummed)) ∧
    (∀ oldName newName target kind plan,
      D.toDir.planRenameDirEntry oldName newName target kind = .ok plan →
      ∃ (D₁ D' : TiledDir) (fileType : UInt8), D.RemovedBy oldName D₁ ∧
        D'.toDir = D.toDir.apply plan ∧ ⟨oldName, target, fileType⟩ ∈ D.live ∧
        (D'.live.Perm (⟨newName, target, fileType⟩ :: D.others oldName) ↔
          kind >>= InodeKind.fileType = .ok fileType ∧ ¬ D₁.LandsOnTail newName) ∧
        (D.Checksummed → D'.Checksummed)) ∧
    (∀ E : TiledDir, E.isDir → E.isHtreeIndexed = false → D.homes.Disjoint E.homes →
      ∀ oldName newName target kind writePage plan, newName ≠ [] →
      (∀ block, writePage = .ok block → block ∉ E.homes) →
      D.toDir.planCrossDirRenameDirEntry oldName E.toDir newName target kind writePage = .ok plan →
      ∃ (D' E' : TiledDir) (fileType : UInt8), D'.toDir = D.toDir.apply ⟨plan.blocks, none⟩ ∧
        E'.toDir = E.toDir.apply plan ∧ ⟨oldName, target, fileType⟩ ∈ D.live ∧
        D'.live = D.others oldName ∧
        (E'.live.Perm (⟨newName, target, fileType⟩ :: E.live) ↔
          1 = fileType ∧ ¬ E.LandsOnTail newName) ∧
        (D.Checksummed → D'.Checksummed) ∧ (E.Checksummed → E'.Checksummed)) ∧
    (∀ oldName newName oldIno overwrittenIno inodes plan,
      D.toDir.planRenameOverwriteDirEntry oldName newName oldIno overwrittenIno inodes = .ok plan →
      ∃ (D' : TiledDir) (oldType newType : UInt8), D'.toDir = D.toDir.apply plan ∧
        ⟨oldName, oldIno, oldType⟩ ∈ D.live ∧ ⟨newName, overwrittenIno, newType⟩ ∈ D.live ∧
        (D'.live.Perm (⟨newName, oldIno, oldType⟩ ::
            (D.others oldName).filter fun x => x.name ≠ newName) ↔ newType = oldType) ∧
        (D.Checksummed → D'.Checksummed)) := by
  refine ⟨fun name target inodes plan h => ?_, fun oldName newName target kind plan h => ?_,
    fun E hE hElinear hdisjoint oldName newName target kind writePage plan hnew hfresh h => ?_,
    fun oldName newName oldIno overwrittenIno inodes plan h => ?_⟩
  · obtain ⟨D', e, hD', hedited, rfl, rfl⟩ := exists_of_planRemoval (h.elim id id)
    exact ⟨D', e.fileType, hD', hedited.mem, hedited.live_eq_others hD, hedited.shape.checksummed⟩
  · obtain ⟨D₁, D', e, fileType, hkind, hremoved, hedited, rfl, rfl, hD', happended⟩ :=
      exists_of_planRename hdir hlinear h
    refine ⟨D₁, D', e.fileType, hremoved, hD', hedited.mem, ?_,
      fun hsum => happended.checksummed (hedited.shape.checksummed hsum)⟩
    rw [← hedited.live_eq_others hD, happended.perm_iff, hkind, Except.ok.injEq]
  · obtain ⟨D', E', e, hedited, rfl, rfl, hD', hE', happended⟩ := exists_of_planCrossDirRename hE
      hElinear hdisjoint (List.length_pos_of_ne_nil hnew) hfresh h
    exact ⟨D', E', e.fileType, hD', hE', hedited.mem, hedited.live_eq_others hD,
      happended.perm_iff e.fileType, hedited.shape.checksummed, happended.checksummed⟩
  obtain ⟨D₁, D', e, f, hedited, rfl, rfl, hedited', rfl, rfl, hD'⟩ :=
    exists_of_planRenameOverwrite h
  have hmem : f ∈ D.live := by
    have := hedited'.mem
    rw [hedited.live_eq_others hD] at this
    exact List.mem_of_mem_filter this
  exact ⟨D', e.fileType, f.fileType, hD', hedited.mem, hmem,
    overwrite_perm_iff hD hedited hedited' e.fileType,
    fun hsum => hedited'.shape.checksummed (hedited.shape.checksummed hsum)⟩

/-! ### Two neighbours -/

lemma live_eq_records (D : TiledDir) : D.live = D.records.filterMap live? := by
  rw [live, records, filterMap_flatMap]
  congr 1
  funext row
  rcases row with _ | ⟨phys, b⟩ <;> rfl

def gapRecords : List Record := [Record.new 2 24 2 [46], Record.new 12 4072 1 [120]]

lemma tiled_gapRecords : Tiled gapRecords := by
  have hlen : (new 2 24 2 [46]).recLen = 24 := recLen_new 2 2 (by decide)
  have hlen' : (new 12 4072 1 [120]).recLen = 4072 := recLen_new 12 1 (by decide)
  refine ⟨fun r hr => ?_, by rw [gapRecords, size_cons, size_cons, hlen, hlen']; rfl⟩
  simp only [gapRecords, mem_cons, not_mem_nil, or_false] at hr
  rcases hr with rfl | rfl
  · exact wellFormed_new (by decide) (by decide) (by decide) (by decide) (by decide)
  · exact wellFormed_new (by decide) (by decide) (by decide) (by decide) (by decide)

def gapDir : TiledDir where
  context := ⟨none, 2, 0⟩
  isDir := true
  isHtreeIndexed := false
  size := blockSize
  rows := [some (9, ⟨gapRecords, tiled_gapRecords, fun h => absurd h Bool.false_ne_true⟩)]
  nodup := List.nodup_cons.mpr ⟨List.not_mem_nil, List.nodup_nil⟩

lemma records_gapDir : gapDir.records = [] ++ new 2 24 2 [46] :: [new 12 4072 1 [120]] := rfl

lemma live_gapDir : gapDir.live = [⟨[46], 2, 2⟩, ⟨[120], 12, 1⟩] := by
  have hdot : (new 2 24 2 [46]).live? = some ⟨[46], 2, 2⟩ := by decide
  have hname : (new 12 4072 1 [120]).live? = some ⟨[120], 12, 1⟩ := by
    rw [live?, name_new (by decide)]
    rfl
  rw [live_eq_records, records_gapDir]
  simp [hdot, hname]

lemma distinct_gapDir : gapDir.Distinct := by
  rw [Distinct, live_gapDir]
  decide

lemma others_gapDir : gapDir.others [120] = [⟨[46], 2, 2⟩] := by
  rw [others, live_gapDir]
  rfl

lemma exists_rename_gapDir : ∃ plan,
    gapDir.toDir.planRenameDirEntry [120] [121] 12 (.ok .file) = .ok plan := by
  have hboth : (do
      let r ← gapDir.toDir.planRemoveDirEntryAfterImage [120]
      let s ← (gapDir.toDir.stage r.2.1 r.2.2.2).planAppendDirEntryAfterImage [121] 12 1
      return (r.1, r.2.1, s.1)) = .ok (12, 9, 9) := by decide +kernel
  simp only [bind_eq_ok] at hboth
  obtain ⟨⟨found, home, before, after⟩, hremove, ⟨home', before', after'⟩, happend, h⟩ := hboth
  obtain ⟨rfl, rfl, rfl⟩ : found = 12 ∧ home = 9 ∧ home' = 9 := by simpa using Except.ok.inj h
  -- both edits are made on the one block
  have hbefore : before' = after := by
    have hmem : some (9, before') ∈ (gapDir.toDir.stage 9 after).pages := mem_of_firstIn happend
    simpa [Dir.stage, TiledDir.toDir, gapDir] using hmem
  refine ⟨⟨[(9, after')], none⟩, ?_⟩
  rw [planRenameDirEntry, if_neg (by simp)]
  simp [hremove, happend, pairBlocks, hbefore, InodeKind.fileType]

theorem removal_and_rename_gapDir :
    (∃ (plan : DirPlan) (D' : TiledDir),
      gapDir.toDir.planUnlinkDirEntry [120] 12 (.ok ()) = .ok plan ∧
        D'.toDir = gapDir.toDir.apply plan ∧ D'.live = [⟨[46], 2, 2⟩]) ∧
    ∃ (plan : DirPlan) (D' : TiledDir),
      gapDir.toDir.planRenameDirEntry [120] [121] 12 (.ok .file) = .ok plan ∧
        D'.toDir = gapDir.toDir.apply plan ∧ D'.live.Perm [⟨[121], 12, 1⟩, ⟨[46], 2, 2⟩] := by
  have hiff := removal_and_rename_iff gapDir rfl rfl distinct_gapDir
  constructor
  · obtain ⟨plan, hplan⟩ := exists_ok
      (show (gapDir.toDir.planUnlinkDirEntry [120] 12 (.ok ())).isOk = true by decide +kernel)
    obtain ⟨D', -, hD', -, hlive, -⟩ := hiff.1 _ _ _ _ (.inl hplan)
    exact ⟨plan, D', hplan, hD', hlive.trans others_gapDir⟩
  · obtain ⟨plan, hplan⟩ := exists_rename_gapDir
    obtain ⟨D₁, D', fileType, ⟨_, _, _, _, -, hD₁⟩, hD', hmem, hperm, -⟩ := hiff.2.1 _ _ _ _ _ hplan
    obtain rfl : fileType = 1 := by
      rw [live_gapDir] at hmem
      simpa using hmem
    -- without checksums there is no tail to land on
    have hcontext : D₁.context = gapDir.context := congrArg Dir.context hD₁
    have htail : ¬ D₁.LandsOnTail [121] := fun hlands => by
      have hseed := hlands.1
      rw [hcontext] at hseed
      cases hseed
    rw [others_gapDir] at hperm
    exact ⟨plan, D', hplan, hD', hperm.mpr ⟨rfl, htail⟩⟩

/-! ### A rename into a full block -/

lemma exists_planRemove {r : Record} (hr : r ∈ D.records) (hbinds : r.Binds name) :
    ∃ inode home before after,
      D.toDir.planRemoveDirEntryAfterImage name = .ok (inode, home, before, after) := by
  rcases hfirst : firstIn (removeBlock D.context name) D.toDir.pages with
    e | ⟨home, before, inode, after⟩
  · rcases of_firstIn_error hfirst with ⟨-, hnone⟩ | ⟨pre, phys, b, post, -, hscan, -⟩
    · obtain ⟨phys, b, hrow, hr⟩ := mem_rowRecords.mp hr
      rcases b.remove_cases with ⟨-, hall⟩ | ⟨b', e, lpre, lpost, hsome, -⟩
      · exact absurd hbinds (hall r hr)
      · cases (hnone phys b hrow).symm.trans hsome
    · rcases b.remove_cases with ⟨hok, -⟩ | ⟨b', e, lpre, lpost, hok, -⟩ <;>
        cases hscan.symm.trans hok
  · refine ⟨inode, home, before, after, ?_⟩
    rw [planRemoveDirEntryAfterImage]
    have hplan : firstIn (removeBlock D.toDir.context name) D.toDir.pages = _ := hfirst
    rw [hplan]
    rfl

def temp : Record := Record.new 12 tailOffset 1 [116, 101, 109, 112]

lemma wellFormed_temp : ∀ r ∈ [temp], r.WellFormed := by
  intro r hr
  rw [mem_singleton.mp hr]
  exact wellFormed_new (by decide) (by decide) (by decide) (by decide) (by decide)

lemma size_temp : Directory.size [temp] = tailOffset := by
  rw [size_cons, temp, recLen_new 12 1 (by decide), size_nil, Nat.add_zero]

def tempDir : TiledDir where
  context := ⟨some 0, 3, 0⟩
  isDir := true
  isHtreeIndexed := false
  size := blockSize
  rows := [some (20, Block.sealed _ 0 [temp] wellFormed_temp size_temp)]
  nodup := List.nodup_cons.mpr ⟨List.not_mem_nil, List.nodup_nil⟩

lemma live_tempDir : tempDir.live = [⟨[116, 101, 109, 112], 12, 1⟩] := by
  have htemp : temp.live? = some ⟨[116, 101, 109, 112], 12, 1⟩ := by decide
  have hnone : (tail 0 ⟨some 0, 3, 0⟩ [temp]).live? = none := if_pos rfl
  simp [live, rowLive, tempDir, Block.sealed, htemp, hnone]

lemma distinct_tempDir : tempDir.Distinct := by
  rw [Distinct, live_tempDir]
  decide

lemma exists_remove_tempDir : ∃ home before after,
    tempDir.toDir.planRemoveDirEntryAfterImage [116, 101, 109, 112] =
      .ok (12, home, before, after) := by
  have hmem : temp ∈ tempDir.records := .head _
  have hbinds : temp.Binds [116, 101, 109, 112] := by decide
  obtain ⟨inode, home, before, after, hremove⟩ := exists_planRemove hmem hbinds
  obtain ⟨D', e, -, hedited, -, rfl, -⟩ := exists_removed hremove
  have he := hedited.mem
  rw [live_tempDir, mem_singleton] at he
  rw [he] at hremove
  exact ⟨home, before, after, hremove⟩

/-- Renamed to a name of one byte in a directory whose first block is full: both names are gone. -/
theorem rename_loses_entry : ∃ (plan : DirPlan) (D' E' : TiledDir),
    tempDir.toDir.planCrossDirRenameDirEntry [116, 101, 109, 112] fullDir.toDir [120] 12 (.ok .file)
        (.ok 10) = .ok plan ∧
      D'.toDir = tempDir.toDir.apply ⟨plan.blocks, none⟩ ∧ E'.toDir = fullDir.toDir.apply plan ∧
      D'.live = [] ∧ E'.live = fullDir.live := by
  obtain ⟨home, before, after, hremove⟩ := exists_remove_tempDir
  obtain ⟨append, happend⟩ := exists_plan_fullDir
  have hplan : tempDir.toDir.planCrossDirRenameDirEntry [116, 101, 109, 112] fullDir.toDir [120] 12
      (.ok .file) (.ok 10) = .ok ⟨(home, after) :: append.blocks, append.grown⟩ := by
    have hinode : ¬ tempDir.toDir.context.inode = fullDir.toDir.context.inode := by decide
    rw [Dir.planCrossDirRenameDirEntry, if_neg hinode, hremove]
    simp [happend]
  have hdisjoint : tempDir.homes.Disjoint fullDir.homes := by
    intro q hq hq'
    have heq : q = 20 := List.mem_singleton.mp hq
    have heq' : q = 9 := List.mem_singleton.mp hq'
    omega
  obtain ⟨D', E', e, hedited, hname, -, hD', hE', happended⟩ := exists_of_planCrossDirRename rfl rfl
    hdisjoint (by decide) fresh_fullDir hplan
  refine ⟨_, D', E', hplan, hD', hE', ?_, happended.lost (landsOnTail_fullDir (by decide))⟩
  rw [hedited.live_eq_others distinct_tempDir, hname, others, live_tempDir]
  rfl

end TiledDir

end TxKernel.Ext4.Directory
