import TxKernel.Ext4.Directory.Rename
import TxKernel.Library.Runs

/-!
Names stay distinct as long as no insertion finds room before it finds its name: the test for a
duplicate ends with the scan for room.
-/

namespace TxKernel.Ext4.Directory

open Bytes Record TiledDir List Dir
open scoped List

namespace TiledDir

variable {D : TiledDir} {name : List UInt8}

/-- The name stands behind a record with room. -/
def Hidden (D : TiledDir) (name : List UInt8) : Prop :=
  ∃ pre r post, D.records = pre ++ r :: post ∧ r.HasRoom name.length ∧
    (∀ q ∈ pre ++ [r], ¬ q.Binds name) ∧ ∃ q ∈ post, q.Binds name

/-! ### Names and records -/

lemma exists_live_iff : (∃ e ∈ D.live, e.name = name) ↔ ∃ r ∈ D.records, r.Binds name := by
  rw [live_eq_records]
  constructor
  · rintro ⟨e, he, rfl⟩
    obtain ⟨r, hr, hlive⟩ := mem_filterMap.mp he
    unfold live? at hlive
    split_ifs at hlive with hfree
    obtain rfl := Option.some.inj hlive
    exact ⟨r, hr, hfree, rfl⟩
  · rintro ⟨r, hr, hlive, rfl⟩
    exact ⟨_, mem_filterMap.mpr ⟨r, hr, if_neg hlive⟩, rfl⟩

lemma length_of_binds {r : Record} (hr : r ∈ D.records) (hbinds : r.Binds name) :
    0 < name.length ∧ name.length ≤ 255 := by
  obtain ⟨phys, b, -, hr⟩ := mem_rowRecords.mp hr
  have hwf := b.tiled.wellFormed r hr
  have hnamed := (hwf.named hbinds.1).1
  have hlt := r.nameLen.toNat_lt
  rw [← hbinds.2, hwf.length_name hbinds.1]
  omega

/-! ### Insertions -/

section

variable {D' : TiledDir} {e : LiveEntry}

/-- An insertion that goes through has not seen its name: there is none, or it is hidden. -/
lemma Appended.hidden (h : D.Appended e D') (hbound : ∃ r ∈ D.records, r.Binds e.name) :
    D.Hidden e.name := by
  obtain ⟨r, hr, hbinds⟩ := hbound
  rcases h.seen with hall | ⟨pre, q, post, hsplit, hpre, hq, hroom⟩
  · exact absurd hbinds (hall r hr).1
  refine ⟨pre, q, post, hsplit, hroom, ?_, ?_⟩
  · intro q' hq'
    rcases mem_append.mp hq' with hq' | hq'
    · exact (hpre q' hq').1
    rw [mem_singleton.mp hq']
    exact hq
  rw [hsplit] at hr
  rcases mem_append.mp hr with hr | hr
  · exact absurd hbinds (hpre r hr).1
  rcases mem_cons.mp hr with rfl | hr
  · exact absurd hbinds hq
  · exact ⟨r, hr, hbinds⟩

lemma Appended.distinct (h : D.Appended e D') (hD : D.Distinct) (hvisible : ¬ D.Hidden e.name) :
    D'.Distinct := by
  by_cases hlands : D.LandsOnTail e.name
  · rw [Distinct, h.lost hlands]
    exact hD
  have hnames := (h.kept hlands).map LiveEntry.name
  rw [Distinct, hnames.nodup_iff, List.map_cons, List.nodup_cons]
  refine ⟨fun hmem => ?_, hD⟩
  exact hvisible (h.hidden (exists_live_iff.mp (List.mem_map.mp hmem)))

lemma Edited.distinct_of_removed (h : D.Edited e [] D') (hD : D.Distinct) : D'.Distinct := by
  rw [Distinct, h.live_eq_others hD]
  exact hD.sublist ((filter_sublist).map _)

lemma Edited.distinct_of_replaced {inode : ℕ} (h : D.Edited e [{ e with inode := inode }] D')
    (hD : D.Distinct) : D'.Distinct := by
  obtain ⟨pre, post, hlive, hlive'⟩ := h.live
  unfold Distinct at hD ⊢
  rw [hlive] at hD
  rw [hlive']
  simpa using hD

end

/-- **A bound name is inserted only if it is hidden**, and then it is. -/
lemma exists_append_iff (hdir : D.isDir) (hlinear : D.isHtreeIndexed = false)
    (hbound : ∃ r ∈ D.records, r.Binds name) {newInode : ℕ} (hinode : newInode ≠ 0)
    (hlt : newInode < 2 ^ 32) (fileType : UInt8) (writePage : Result ℕ) :
    (∃ plan, D.toDir.planAppendDirEntryMutation name newInode fileType writePage = .ok plan) ↔
      D.Hidden name := by
  obtain ⟨r, hr, hbinds⟩ := hbound
  obtain ⟨hname, hle⟩ := length_of_binds hr hbinds
  have hn : Bindable name newInode := ⟨hname, hle, hinode, hlt⟩
  constructor
  · rintro ⟨plan, hplan⟩
    rw [planAppendDirEntryMutation] at hplan
    rcases planAppendDirEntryAfterImage_cases hdir hlinear hn with
      ⟨-, hall⟩ | ⟨hafter, -⟩ | ⟨pre, phys, b, post, b', rpre, q, rpost, -, hinserts⟩
    · exact absurd hbinds (hall r hr).1
    · rw [hafter] at hplan
      cases hplan
    · exact hinserts.appended.hidden ⟨r, hr, hbinds⟩
  · rintro ⟨pre, q, post, hsplit, hroom, hunbound, -⟩
    exact exists_plan hdir hlinear hn writePage hsplit hroom hunbound

end TiledDir

/-! ### Sequences of plans -/

def ValidInode (inode : ℕ) : Prop := inode ≠ 0 ∧ inode < 2 ^ 32

/-- A plan for a directory, with what its other steps answer. -/
inductive Op where
  | create (name : List UInt8) (allocation writePage : Result ℕ) (inodes : Result Unit)
  | mkdir (name : List UInt8) (allocation writePage : Result ℕ) (inodes : Result Unit)
  | link (name : List UInt8) (target : ℕ) (writePage : Result ℕ) (inodes : Result Unit)
  | unlink (name : List UInt8) (target : ℕ) (inodes : Result Unit)
  | rmdir (name : List UInt8) (target : ℕ) (inodes : Result Unit)
  | rename (oldName newName : List UInt8) (target : ℕ) (kind : Result InodeKind)
  | overwrite (oldName newName : List UInt8) (oldIno overwrittenIno : ℕ) (inodes : Result Unit)
  | moveOut (oldName : List UInt8) (newDir : TiledDir) (newName : List UInt8) (target : ℕ)
      (kind : Result InodeKind) (writePage : Result ℕ)
  | moveIn (oldDir : TiledDir) (oldName newName : List UInt8) (target : ℕ)
      (kind : Result InodeKind) (writePage : Result ℕ)

namespace Op

def plan (d : Dir) : Op → Result DirPlan
  | create name allocation writePage inodes =>
    (d.planCreateRegularFile name allocation writePage inodes).map Prod.snd
  | mkdir name allocation writePage inodes =>
    (d.planCreateDirectory name allocation writePage inodes).map Prod.snd
  | link name target writePage inodes => d.planLinkDirEntry name target writePage inodes
  | unlink name target inodes => d.planUnlinkDirEntry name target inodes
  | rmdir name target inodes => d.planRmdirDirEntry name target inodes
  | rename oldName newName target kind => d.planRenameDirEntry oldName newName target kind
  | overwrite oldName newName oldIno overwrittenIno inodes =>
    d.planRenameOverwriteDirEntry oldName newName oldIno overwrittenIno inodes
  | moveOut oldName newDir newName target kind writePage =>
    (d.planCrossDirRenameDirEntry oldName newDir.toDir newName target kind writePage).map
      fun plan => ⟨plan.blocks, none⟩
  | moveIn oldDir oldName newName target kind writePage =>
    oldDir.toDir.planCrossDirRenameDirEntry oldName d newName target kind writePage

def step (d : Dir) (op : Op) : Dir × Bool :=
  match op.plan d with
  | .ok plan => (d.apply plan, true)
  | .error _ => (d, false)

/-- What the other steps of a plan can answer: inodes have numbers, a new block is none of the
directory's, and two directories have no block in common. -/
def Sound (D : TiledDir) : Op → Prop
  | create name allocation writePage _ | mkdir name allocation writePage _ =>
    0 < name.length ∧ (∀ inode, allocation = .ok inode → ValidInode inode) ∧
      ∀ block, writePage = .ok block → block ∉ D.homes
  | link name target writePage _ =>
    0 < name.length ∧ ValidInode target ∧ ∀ block, writePage = .ok block → block ∉ D.homes
  | moveOut _ newDir newName _ _ writePage =>
    newDir.isDir ∧ newDir.isHtreeIndexed = false ∧ D.homes.Disjoint newDir.homes ∧
      0 < newName.length ∧ ∀ block, writePage = .ok block → block ∉ newDir.homes
  | moveIn oldDir _ newName _ _ writePage =>
    oldDir.homes.Disjoint D.homes ∧ 0 < newName.length ∧
      ∀ block, writePage = .ok block → block ∉ D.homes
  | unlink .. | rmdir .. | rename .. | overwrite .. => True

/-- The name that is inserted is not hidden in what it is inserted into. -/
def Visible (D : TiledDir) : Op → Prop
  | create name _ _ _ | mkdir name _ _ _ | link name _ _ _ => ¬ D.Hidden name
  | moveIn _ _ newName _ _ _ => ¬ D.Hidden newName
  | rename oldName newName _ _ => ∀ D₁, D.RemovedBy oldName D₁ → ¬ D₁.Hidden newName
  | unlink .. | rmdir .. | overwrite .. | moveOut .. => True

section step

variable {D : TiledDir} {plan : DirPlan}

section

variable (hdir : D.isDir) (hlinear : D.isHtreeIndexed = false) (hD : D.Distinct) {name : List UInt8}
  (hname : 0 < name.length) {fileType : UInt8} {writePage : Result ℕ}
include hdir hlinear hD hname

lemma exists_of_append {newInode : ℕ} (hinode : ValidInode newInode)
    (hfresh : ∀ block, writePage = .ok block → block ∉ D.homes) (hvisible : ¬ D.Hidden name)
    (h : D.toDir.planAppendDirEntryMutation name newInode fileType writePage = .ok plan) :
    ∃ D' : TiledDir, D'.toDir = D.toDir.apply plan ∧ D'.Distinct := by
  obtain ⟨D', hD', happended, -⟩ := exists_appended hdir hlinear
    ⟨hname, length_le_of_append h, hinode.1, hinode.2⟩ hfresh h
  exact ⟨D', hD', happended.distinct hD hvisible⟩

lemma exists_of_create {allocation : Result ℕ}
    (hinode : ∀ inode, allocation = .ok inode → ValidInode inode)
    (hfresh : ∀ block, writePage = .ok block → block ∉ D.homes) (hvisible : ¬ D.Hidden name)
    {inodes : Result Unit}
    (h : (D.toDir.planCreate fileType name allocation writePage inodes).map Prod.snd = .ok plan) :
    ∃ D' : TiledDir, D'.toDir = D.toDir.apply plan ∧ D'.Distinct := by
  rcases hcreate : D.toDir.planCreate fileType name allocation writePage inodes with e | ⟨ino, p⟩
  · rw [hcreate] at h
    cases h
  rw [hcreate] at h
  obtain rfl : p = plan := Except.ok.inj h
  simp only [planCreate, bind_eq_ok] at hcreate
  obtain ⟨newIno, halloc, p', happend, -, -, hout⟩ := hcreate
  obtain ⟨-, rfl⟩ := Prod.mk.inj (Except.ok.inj hout)
  exact exists_of_append hdir hlinear hD hname (hinode newIno halloc) hfresh hvisible happend

end

lemma exists_of_plan (op : Op) (hdir : D.isDir) (hlinear : D.isHtreeIndexed = false)
    (hD : D.Distinct) (hsound : op.Sound D) (hvisible : op.Visible D)
    (h : op.plan D.toDir = .ok plan) :
    ∃ D' : TiledDir, D'.toDir = D.toDir.apply plan ∧ D'.Distinct := by
  cases op with
  | create name allocation writePage inodes | mkdir name allocation writePage inodes =>
    exact exists_of_create hdir hlinear hD hsound.1 hsound.2.1 hsound.2.2 hvisible h
  | link name target writePage inodes =>
    simp only [Op.plan, planLinkDirEntry, bind_eq_ok] at h
    obtain ⟨p, happend, -, -, hout⟩ := h
    obtain rfl := Except.ok.inj hout
    exact exists_of_append hdir hlinear hD hsound.1 hsound.2.1 hsound.2.2 hvisible happend
  | unlink name target inodes | rmdir name target inodes =>
    obtain ⟨D', e, hD', hedited, -⟩ := exists_of_planRemoval h
    exact ⟨D', hD', hedited.distinct_of_removed hD⟩
  | rename oldName newName target kind =>
    obtain ⟨D₁, D', e, fileType, -, hremoved, hedited, -, -, hD', happended⟩ :=
      exists_of_planRename hdir hlinear h
    exact ⟨D', hD', happended.distinct (hedited.distinct_of_removed hD) (hvisible D₁ hremoved)⟩
  | overwrite oldName newName oldIno overwrittenIno inodes =>
    obtain ⟨D₁, D', e, f, hedited, -, -, hedited', -, -, hD'⟩ :=
      exists_of_planRenameOverwrite h
    exact ⟨D', hD', hedited'.distinct_of_replaced (hedited.distinct_of_removed hD)⟩
  | moveOut oldName newDir newName target kind writePage =>
    obtain ⟨hE, hElinear, hdisjoint, hname, hfresh⟩ := hsound
    rcases hcross : D.toDir.planCrossDirRenameDirEntry oldName newDir.toDir newName target kind
      writePage with e | p
    · rw [Op.plan, hcross] at h
      cases h
    rw [Op.plan, hcross] at h
    obtain rfl := Except.ok.inj h
    obtain ⟨D', -, e, hedited, -, -, hD', -, -⟩ :=
      exists_of_planCrossDirRename hE hElinear hdisjoint hname hfresh hcross
    exact ⟨D', hD', hedited.distinct_of_removed hD⟩
  | moveIn oldDir oldName newName target kind writePage =>
    obtain ⟨hdisjoint, hname, hfresh⟩ := hsound
    obtain ⟨-, D', e, -, -, -, -, hD', happended⟩ :=
      exists_of_planCrossDirRename hdir hlinear hdisjoint hname hfresh h
    exact ⟨D', hD', happended.distinct hD hvisible⟩

end step

/-- A linear directory with distinct names. -/
def Unique (d : Dir) : Prop :=
  ∃ D : TiledDir, D.toDir = d ∧ D.isDir ∧ D.isHtreeIndexed = false ∧ D.Distinct

lemma isDir_apply (d : Dir) (plan : DirPlan) :
    (d.apply plan).isDir = d.isDir ∧ (d.apply plan).isHtreeIndexed = d.isHtreeIndexed := by
  have hfold (blocks : List (ℕ × List UInt8)) :
      (blocks.foldl (fun d p => d.stage p.1 p.2) d).isDir = d.isDir ∧
      (blocks.foldl (fun d p => d.stage p.1 p.2) d).isHtreeIndexed = d.isHtreeIndexed := by
    induction blocks using reverseRecOn with
    | nil => exact ⟨rfl, rfl⟩
    | append_singleton blocks p ih =>
      rw [foldl_append]
      exact ih
  unfold apply
  cases plan.grown with
  | none => exact hfold plan.blocks
  | some p => exact hfold plan.blocks

lemma unique_step {d : Dir} {op : Op} (h : Unique d)
    (hop : ∀ D : TiledDir, D.toDir = d → op.Sound D ∧ op.Visible D) : Unique (step d op).1 := by
  obtain ⟨D, rfl, hdir, hlinear, hD⟩ := h
  obtain ⟨hsound, hvisible⟩ := hop D rfl
  unfold step
  rcases hplan : op.plan D.toDir with e | plan
  · exact ⟨D, rfl, hdir, hlinear, hD⟩
  obtain ⟨D', hD', hdistinct⟩ := exists_of_plan op hdir hlinear hD hsound hvisible hplan
  have hflags := isDir_apply D.toDir plan
  rw [← hD'] at hflags
  exact ⟨D', hD', hflags.1.trans hdir, hflags.2.trans hlinear, hdistinct⟩

/-- **Names are unique unless one is hidden**: in a linear directory, all plans to create or link a
name that is bound fail if and only if the name is not hidden, and any sequence of plans keeps names
distinct if none of them inserts a hidden one. -/
theorem names_distinct_iff (D : TiledDir) (hdir : D.isDir) (hlinear : D.isHtreeIndexed = false) :
    (∀ name : List UInt8, (∃ e ∈ D.live, e.name = name) →
      ((∀ (allocation writePage : Result ℕ) (inodes : Result Unit) (target : ℕ),
          (∀ inode, allocation = .ok inode → ValidInode inode) → ValidInode target →
          (∀ r, D.toDir.planCreateRegularFile name allocation writePage inodes ≠ .ok r) ∧
          (∀ r, D.toDir.planCreateDirectory name allocation writePage inodes ≠ .ok r) ∧
          ∀ r, D.toDir.planLinkDirEntry name target writePage inodes ≠ .ok r) ↔
        ¬ D.Hidden name)) ∧
    (D.Distinct → ∀ ops : List Op,
      Runs.Allowed step (fun d op => ∀ D' : TiledDir, D'.toDir = d → op.Sound D' ∧ op.Visible D')
        D.toDir ops →
      ∃ D' : TiledDir, D'.toDir = (Runs.runSpec step D.toDir ops).1 ∧
        Dir.liveEntries (Runs.runSpec step D.toDir ops).1.pages = .ok D'.live ∧ D'.Distinct) := by
  constructor
  · intro name hbound
    have hbound := exists_live_iff.mp hbound
    have happend {newInode : ℕ} (hinode : ValidInode newInode) (fileType : UInt8)
        (writePage : Result ℕ) := exists_append_iff hdir hlinear hbound hinode.1 hinode.2
      fileType writePage
    constructor
    · intro hfail hhidden
      have hvalid : ValidInode 12 := ⟨by decide, by decide⟩
      obtain ⟨plan, hplan⟩ := (happend hvalid 1 (.error .outOfBounds)).mpr hhidden
      refine (hfail (.ok 12) (.error .outOfBounds) (.ok ()) 12 (fun inode h => ?_) hvalid).2.2
        plan ?_
      · rwa [← Except.ok.inj h]
      rw [planLinkDirEntry, hplan]
      rfl
    intro hvisible allocation writePage inodes target halloc htarget
    have hcreate (fileType : UInt8) (r : ℕ × DirPlan)
        (h : D.toDir.planCreate fileType name allocation writePage inodes = .ok r) : False := by
      simp only [planCreate, bind_eq_ok] at h
      obtain ⟨newIno, hnew, plan, hplan, -⟩ := h
      exact hvisible ((happend (halloc newIno hnew) fileType writePage).mp ⟨plan, hplan⟩)
    refine ⟨hcreate 1, hcreate 2, fun r h => ?_⟩
    simp only [planLinkDirEntry, bind_eq_ok] at h
    obtain ⟨plan, hplan, -⟩ := h
    exact hvisible ((happend htarget 1 writePage).mp ⟨plan, hplan⟩)
  · intro hD ops hallowed
    obtain ⟨D', hD', -, -, hdistinct⟩ := Runs.invariant Unique
      (fun d op h hop => unique_step h hop) ops ⟨D, rfl, hdir, hlinear, hD⟩ hallowed
    exact ⟨D', hD', by rw [← hD', liveEntries_toDir], hdistinct⟩

/-! ### A name behind a gap -/

lemma not_hidden_dot : ¬ gapDir.Hidden [46] := by
  rintro ⟨pre, r, post, hsplit, -, hunbound, -⟩
  have hmem : new 2 24 2 [46] ∈ pre ++ [r] := by
    rcases pre with _ | ⟨q, pre⟩
    · rw [(cons.inj hsplit).1]
      exact .head _
    · rw [(cons.inj hsplit).1]
      exact .head _
  exact hunbound _ hmem (by decide)

def createAndUnlink : List Op :=
  [.create [121] (.ok 13) (.error .outOfBounds) (.ok ()), .unlink [120] 12 (.ok ())]

lemma allowed_createAndUnlink :
    Runs.Allowed step (fun d op => ∀ D' : TiledDir, D'.toDir = d → op.Sound D' ∧ op.Visible D')
      gapDir.toDir createAndUnlink := by
  refine ⟨fun D' hD' => ⟨⟨by decide, fun inode h => ?_, fun block h => ?_⟩, fun hhidden => ?_⟩,
    fun _ _ => ⟨trivial, trivial⟩, trivial⟩
  · rw [← Except.ok.inj h]
    exact ⟨by decide, by decide⟩
  · cases h
  · obtain ⟨pre, r, post, hsplit, -, -, q, hq, hbinds⟩ := hhidden
    have hmem : q ∈ D'.records := by simp [hsplit, hq]
    obtain ⟨e, he, hname⟩ := exists_live_iff.mpr ⟨q, hmem, hbinds⟩
    have hlive : Dir.liveEntries D'.toDir.pages = .ok D'.live := liveEntries_toDir D'
    rw [hD', liveEntries_toDir, live_gapDir] at hlive
    rw [← Except.ok.inj hlive] at he
    simp only [mem_cons, not_mem_nil, or_false] at he
    rcases he with rfl | rfl <;> cases hname

/-- The name `.` stands before the gap, so that it is seen; and names stay distinct when one is
created behind it. -/
theorem names_distinct_gapDir : ((∃ e ∈ gapDir.live, e.name = [46]) ∧
    ∀ r, gapDir.toDir.planCreateRegularFile [46] (.ok 13) (.ok 10) (.ok ()) ≠ .ok r) ∧
    ∃ D' : TiledDir, D'.toDir = (Runs.runSpec step gapDir.toDir createAndUnlink).1 ∧
      D'.live = [⟨[46], 2, 2⟩, ⟨[121], 13, 1⟩] ∧ D'.Distinct := by
  have hbound : ∃ e ∈ gapDir.live, e.name = [46] := by
    rw [live_gapDir]
    exact ⟨_, .head _, rfl⟩
  have hvalid : ValidInode 13 := ⟨by decide, by decide⟩
  refine ⟨⟨hbound, ?_⟩, ?_⟩
  · refine (((names_distinct_iff gapDir rfl rfl).1 [46] hbound).mpr not_hidden_dot (.ok 13) (.ok 10)
    (.ok ()) 13 (fun inode h => ?_) hvalid).1
    rwa [← Except.ok.inj h]
  obtain ⟨D', hD', hlive, hdistinct⟩ :=
    (names_distinct_iff gapDir rfl rfl).2 distinct_gapDir _ allowed_createAndUnlink
  refine ⟨D', hD', Except.ok.inj (hlive.symm.trans ?_), hdistinct⟩
  decide +kernel

/-- A file is created a second time under its name, which the gap hides. -/
theorem duplicate_behind_gap : ∃ (plan : DirPlan) (D' : TiledDir),
    gapDir.Distinct ∧
      gapDir.toDir.planCreateRegularFile [120] (.ok 13) (.ok 10) (.ok ()) = .ok (13, plan) ∧
      D'.toDir = gapDir.toDir.apply plan ∧ ¬ D'.Distinct := by
  have hroom : (Record.new 2 24 2 [46]).HasRoom 1 := by decide
  have hexists : ∃ plan,
      gapDir.toDir.planAppendDirEntryMutation [120] 13 1 (.ok 10) = .ok plan :=
    exists_plan rfl rfl ⟨by decide, by decide, by decide, by decide⟩ (.ok 10)
      records_gapDir hroom (by decide)
  obtain ⟨plan, hplan⟩ := hexists
  have hfresh := fresh_of_notMem (show 10 ∉ gapDir.homes by simp [homes, gapDir])
  obtain ⟨D', hD', happended, -⟩ := exists_appended rfl rfl
    ⟨by decide, by decide, by decide, by decide⟩ hfresh hplan
  refine ⟨plan, D', ?_, ?_, hD', fun hdistinct => ?_⟩
  · exact distinct_gapDir
  · rw [planCreateRegularFile, planCreate, ok_bind, hplan]
    rfl
  have hkept := happended.kept fun hlands => Bool.false_ne_true hlands.1
  rw [TiledDir.Distinct, (hkept.map LiveEntry.name).nodup_iff, live_gapDir] at hdistinct
  exact absurd hdistinct (by decide)

end Op

end TxKernel.Ext4.Directory
