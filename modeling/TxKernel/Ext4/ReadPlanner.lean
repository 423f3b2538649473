import Mathlib.Algebra.Group.Nat.Defs
import TxKernel.Ext4.Extents

/-!
The asynchronous read of a file page. A node of the extent tree that is not cached is read into the
frame of the request, and the request is planned once more; a page that then turns out to be a hole
keeps the node in its frame.
-/

namespace TxKernel.Ext4.Planner

open Bytes List Function ExtentHeader

inductive Errno
  | einval
  | enosys
  | enoent
  | eagain
  deriving DecidableEq

def mapFormatError : Ext4FormatError → Errno
  | .badMagic => .einval
  | .corrupt => .einval
  | .truncated => .einval
  | .outOfBounds => .enoent
  | .unsupported => .enosys
  | .wouldBlock => .eagain

def blockSize : ℕ := 4096

structure BioVec where
  ppn : ℕ
  offset : ℕ
  len : ℕ
  deriving DecidableEq

/-- A range of pages (`pageCacheSegments`) is planned from cached nodes only and is left out. -/
inductive IoDataTarget
  | pageCache (frame offset len : ℕ)
  | direct (vecs : List BioVec)
  | none
  deriving DecidableEq

structure BackendPageRequest where
  object : ℕ
  startPage : ℕ
  generationHint : Option ℕ
  target : IoDataTarget
  deriving DecidableEq

inductive Ext4ReadMapping
  | hole
  | data (physicalBlock : ℕ)
  | metadataFirst (physicalBlock : ℕ)
  | err (errno : Errno)
  deriving DecidableEq

structure BioPlan where
  startLba : ℕ
  blockCount : ℕ
  vecs : List BioVec
  deriving DecidableEq

inductive BackendPlan
  | complete (frame : ℕ)
  | submitBios (bio : BioPlan)
  | metadataFirst (request : BackendPageRequest) (bio : BioPlan)
  | err (errno : Errno)
  deriving DecidableEq

/-! ### The mapping table -/

structure Ext4MappingTable where
  rows : ℕ × ℕ → Option Ext4ReadMapping
  roots : ℕ → Option (List UInt8)
  nodes : ℕ × ℕ → Option (List UInt8)

/-- Follow the tree through at most `fuel` nodes. -/
def followNodes (nodes : ℕ → Option (List UInt8)) (logicalBlock : ℕ) :
    ℕ → List UInt8 → Ext4ReadMapping
  | 0, _ => .err .einval
  | fuel + 1, node =>
    match mapExtentRoot node logicalBlock with
    | .ok (.data block) => .data block
    | .ok .hole => .hole
    | .ok (.needNode block) =>
      match nodes block with
      | none => .metadataFirst block
      | some cached => followNodes nodes logicalBlock fuel cached
    | .error e => .err (mapFormatError e)

namespace Ext4MappingTable

def mapPage (table : Ext4MappingTable) (request : BackendPageRequest) : Ext4ReadMapping :=
  match table.rows (request.object, request.startPage) with
  | some mapping => mapping
  | none =>
    match table.roots request.object with
    | none => .err .enosys
    | some root =>
      if request.startPage < 2 ^ 32 then
        followNodes (fun block => table.nodes (request.object, block)) request.startPage 8 root
      else .err .einval

def insertExtentNode (table : Ext4MappingTable) (object physicalBlock : ℕ) (node : List UInt8) :
    Except Errno Ext4MappingTable :=
  if node.length < blockSize then .error .einval
  else
    match mapExtentRoot (node.take blockSize) 0 with
    | .error e => .error (mapFormatError e)
    | .ok _ =>
      .ok { table with
        nodes := Function.update table.nodes (object, physicalBlock) (some (node.take blockSize)) }

def resumeMetadata (table : Ext4MappingTable) (frames : ℕ → List UInt8)
    (request : BackendPageRequest) : Except Errno Ext4MappingTable :=
  match table.mapPage request with
  | .metadataFirst physicalBlock =>
    match request.target with
    | .pageCache frame offset len =>
      if offset ≠ 0 ∨ len ≠ blockSize then .error .einval
      else table.insertExtentNode request.object physicalBlock (frames frame)
    | _ => .error .einval
  | _ => .ok table

end Ext4MappingTable

/-! ### Plans -/

structure Ext4BlockGeometry where
  sectorsPerBlock : ℕ

def directBioVecs (vecs : List BioVec) : Except Errno (List BioVec) :=
  if vecs = [] then .error .einval
  else if vecs.any fun vec => vec.len = 0 then .error .einval
  else if (vecs.map BioVec.len).sum ≠ blockSize then .error .einval
  else .ok vecs

def Ext4BlockGeometry.planRead (g : Ext4BlockGeometry) (physicalBlock : ℕ) :
    IoDataTarget → Except Errno BioPlan
  | .none => .error .einval
  | .pageCache frame offset len =>
    if offset ≠ 0 ∨ len ≠ blockSize then .error .einval else finish [⟨frame, offset, len⟩]
  | .direct vecs =>
    match directBioVecs vecs with
    | .error e => .error e
    | .ok vecs => finish vecs
where
  finish (vecs : List BioVec) : Except Errno BioPlan :=
    if g.sectorsPerBlock = 0 then .error .einval
    else if physicalBlock * g.sectorsPerBlock < 2 ^ 64 then
      .ok ⟨physicalBlock * g.sectorsPerBlock, g.sectorsPerBlock, vecs⟩
    else .error .einval

def planReadRequest (g : Ext4BlockGeometry) (request : BackendPageRequest)
    (mapping : Ext4ReadMapping) : BackendPlan :=
  match request.generationHint with
  | none => .err .einval
  | some _ =>
    match mapping with
    | .hole =>
      match request.target with
      | .pageCache frame _ _ => .complete frame
      | .direct _ => .err .enosys
      | .none => .err .einval
    | .data physicalBlock =>
      match g.planRead physicalBlock request.target with
      | .ok bio => .submitBios bio
      | .error errno => .err errno
    | .metadataFirst physicalBlock =>
      match g.planRead physicalBlock request.target with
      | .ok bio => .metadataFirst request bio
      | .error errno => .err errno
    | .err errno => .err errno

def planPageIo (g : Ext4BlockGeometry) (table : Ext4MappingTable) (request : BackendPageRequest) :
    BackendPlan :=
  planReadRequest g request (table.mapPage request)

def resumePageIo (g : Ext4BlockGeometry) (table : Ext4MappingTable) (frames : ℕ → List UInt8)
    (request : BackendPageRequest) : Ext4MappingTable × BackendPlan :=
  match table.resumeMetadata frames request with
  | .error errno => (table, .err errno)
  | .ok table => (table, planPageIo g table request)

/-! ### The read as a whole -/

abbrev Device := (startLba blockCount : ℕ) → Page4K

def scatter (frames : ℕ → List UInt8) : List UInt8 → List BioVec → ℕ → List UInt8
  | _, [] => frames
  | bytes, vec :: vecs =>
    scatter (Function.update frames vec.ppn
      (splice (frames vec.ppn) vec.offset (bytes.take vec.len))) (bytes.drop vec.len) vecs

def execute (device : Device) (bio : BioPlan) (frames : ℕ → List UInt8) : ℕ → List UInt8 :=
  scatter frames (device bio.startLba bio.blockCount).bytes bio.vecs

/-- Execute a plan and what it is resumed with, until it completes. -/
def runPlan (g : Ext4BlockGeometry) (device : Device) :
    ℕ → Ext4MappingTable → (ℕ → List UInt8) → BackendPlan → Option (Except Errno (ℕ → List UInt8))
  | 0, _, _, _ => none
  | _ + 1, _, frames, .complete _ => some (.ok frames)
  | _ + 1, _, frames, .submitBios bio => some (.ok (execute device bio frames))
  | fuel + 1, table, frames, .metadataFirst request bio =>
    let frames := execute device bio frames
    let (table, plan) := resumePageIo g table frames request
    runPlan g device fuel table frames plan
  | _ + 1, _, _, .err errno => some (.error errno)

/-! ### Following the tree -/

variable {node : List UInt8} {nodes : ℕ → Option (List UInt8)} {table' : Ext4MappingTable}

lemma followNodes_fits {logicalBlock fuel block : ℕ} (hlb : logicalBlock < 2 ^ 32)
    (h : followNodes nodes logicalBlock fuel node = .data block ∨
      followNodes nodes logicalBlock fuel node = .metadataFirst block) : block < 2 ^ 49 := by
  induction fuel generalizing node with
  | zero => simp [followNodes] at h
  | succ fuel ih =>
    unfold followNodes at h
    rcases hmap : mapExtentRoot node logicalBlock with e | b | _ | b <;> simp only [hmap] at h
    · simp at h
    · have hfits := mapExtentRoot_fits hlb hmap
      obtain rfl : b = block := by simpa using h
      exact hfits
    · simp at h
    have hfits := mapExtentRoot_fits hlb hmap
    cases hb : nodes b with
    | none =>
      obtain rfl : b = block := by simpa [hb] using h
      exact hfits
    | some cached => exact ih (by simpa only [hb] using h)

lemma followNodes_all_ne (nodes : ℕ → List UInt8) (logicalBlock fuel : ℕ) (node : List UInt8)
    (block : ℕ) :
    followNodes (fun b => some (nodes b)) logicalBlock fuel node ≠ .metadataFirst block := by
  induction fuel generalizing node with
  | zero => simp [followNodes]
  | succ fuel ih =>
    unfold followNodes
    rcases mapExtentRoot node logicalBlock with e | b | _ | b <;> simp only [] <;> try simp
    exact ih _

lemma followNodes_cases (nodes : ℕ → Option (List UInt8)) (logicalBlock fuel : ℕ)
    (node : List UInt8) :
    (∀ nodes' : ℕ → Option (List UInt8), (∀ b n, nodes b = some n → nodes' b = some n) →
      followNodes nodes' logicalBlock fuel node = followNodes nodes logicalBlock fuel node) ∨
    ∃ block, followNodes nodes logicalBlock fuel node = .metadataFirst block ∧ ∃ rest < fuel,
      ∀ nodes' : ℕ → Option (List UInt8), (∀ b n, nodes b = some n → nodes' b = some n) →
        ∀ child, nodes' block = some child →
          followNodes nodes' logicalBlock fuel node =
            followNodes nodes' logicalBlock rest child := by
  induction fuel generalizing node with
  | zero => exact .inl fun nodes' _ => rfl
  | succ fuel ih =>
    simp only [followNodes]
    rcases hmap : mapExtentRoot node logicalBlock with e | b | _ | b
    · exact .inl fun _ _ => rfl
    · exact .inl fun _ _ => rfl
    · exact .inl fun _ _ => rfl
    rcases hb : nodes b with _ | cached
    · refine .inr ⟨b, by simp [hb], fuel, Nat.lt_succ_self fuel, fun nodes' _ child hc => ?_⟩
      simp only [hc]
    rcases ih cached with hsame | ⟨block, hfirst, rest, hlt, hgo⟩
    · refine .inl fun nodes' hle => ?_
      simp only [hb, hle b cached hb]
      exact hsame nodes' hle
    refine .inr ⟨block, by simpa only [hb] using hfirst, rest, Nat.lt_succ_of_lt hlt,
      fun nodes' hle child hc => ?_⟩
    simp only [hle b cached hb]
    exact hgo nodes' hle child hc

/-! ### The file and its cache -/

section file

variable (g : Ext4BlockGeometry) (device : Device) (request : BackendPageRequest)
  (root : List UInt8)

def blockAt (block : ℕ) : List UInt8 :=
  (device (block * g.sectorsPerBlock) g.sectorsPerBlock).bytes

/-- Where the extent tree on the device has the page of the request. -/
def fileMapping : Ext4ReadMapping :=
  if request.startPage < 2 ^ 32 then
    followNodes (fun block => some (blockAt g device block)) request.startPage 8 root
  else .err .einval

def fileContent : Option (List UInt8) :=
  match fileMapping g device request root with
  | .data block => some (blockAt g device block)
  | .hole => some (List.replicate blockSize 0)
  | _ => none

/-- The table knows the root of the file, and nothing of the file that is not so on the device. -/
structure Faithful (table : Ext4MappingTable) : Prop where
  rooted : table.roots request.object = some root
  rows : ∀ m, table.rows (request.object, request.startPage) = some m →
    m = fileMapping g device request root
  nodes : ∀ block node, table.nodes (request.object, block) = some node →
    node = blockAt g device block

variable {g device request root} {table : Ext4MappingTable}

lemma fileMapping_ne (block : ℕ) : fileMapping g device request root ≠ .metadataFirst block := by
  unfold fileMapping
  split_ifs
  · exact followNodes_all_ne _ _ _ _ _
  · simp

variable {block : ℕ}

section

variable (h : Faithful g device request root table)
include h

lemma Faithful.mapPage_eq (hrow : table.rows (request.object, request.startPage) = none)
    (hpage : request.startPage < 2 ^ 32) :
    table.mapPage request = followNodes (fun block => table.nodes (request.object, block))
      request.startPage 8 root := by
  simp only [Ext4MappingTable.mapPage, hrow, h.rooted, if_pos hpage]

lemma Faithful.of_metadataFirst (hmap : table.mapPage request = .metadataFirst block) :
    table.rows (request.object, request.startPage) = none ∧ request.startPage < 2 ^ 32 := by
  unfold Ext4MappingTable.mapPage at hmap
  cases hrow : table.rows (request.object, request.startPage) with
  | some m =>
    simp only [hrow] at hmap
    exact absurd (h.rows m hrow ▸ hmap) (fileMapping_ne block)
  | none =>
    simp only [hrow, h.rooted] at hmap
    split_ifs at hmap with hpage
    exact ⟨rfl, hpage⟩

lemma Faithful.mapPage_eq_fileMapping
    (hmap : ∀ block, table.mapPage request ≠ .metadataFirst block) :
    table.mapPage request = fileMapping g device request root := by
  cases hrow : table.rows (request.object, request.startPage) with
  | some m =>
    rw [← h.rows m hrow]
    simp [Ext4MappingTable.mapPage, hrow]
  | none =>
    by_cases hpage : request.startPage < 2 ^ 32
    · rw [h.mapPage_eq hrow hpage] at hmap ⊢
      rw [fileMapping, if_pos hpage]
      rcases followNodes_cases (fun block => table.nodes (request.object, block)) request.startPage
        8 root with hsame | ⟨block, hfirst, -⟩
      · exact (hsame _ fun b n hn => by rw [h.nodes b n hn]).symm
      · exact absurd hfirst (hmap block)
    · simp only [Ext4MappingTable.mapPage, hrow, h.rooted, fileMapping, if_neg hpage]

end

/-! ### Reads into the frame -/

variable {frames : ℕ → List UInt8} {ppn : ℕ} {bio : BioPlan} {fuel : ℕ}

lemma length_blockAt (g : Ext4BlockGeometry) (device : Device) (block : ℕ) :
    (blockAt g device block).length = blockSize :=
  (device _ _).length_eq

lemma execute_page (g : Ext4BlockGeometry) (device : Device)
    (hlen : (frames ppn).length = blockSize) (block : ℕ) :
    execute device ⟨block * g.sectorsPerBlock, g.sectorsPerBlock,
      [⟨ppn, 0, blockSize⟩]⟩ frames ppn = blockAt g device block := by
  have hblock := length_blockAt g device block
  change update frames ppn
    (splice (frames ppn) 0 ((blockAt g device block).take blockSize)) ppn = _
  rw [update_self, ← hblock, take_length, splice, take_zero, nil_append,
    Nat.zero_add, hblock, ← hlen, drop_length, append_nil]

lemma planRead_pageCache (block : ℕ) (h : g.planRead block (.pageCache ppn 0 blockSize) = .ok bio) :
    bio = ⟨block * g.sectorsPerBlock, g.sectorsPerBlock, [⟨ppn, 0, blockSize⟩]⟩ := by
  simp only [Ext4BlockGeometry.planRead, Ext4BlockGeometry.planRead.finish, ne_eq,
    not_true_eq_false, or_self, if_false] at h
  split_ifs at h
  exact (Except.ok.inj h).symm

/-- The sectors of every block can be named. -/
def Addressed (g : Ext4BlockGeometry) : Prop := 0 < g.sectorsPerBlock ∧ g.sectorsPerBlock ≤ 2 ^ 15

lemma Addressed.planRead (h : Addressed g) (hblock : block < 2 ^ 49) (ppn : ℕ) :
    g.planRead block (.pageCache ppn 0 blockSize) =
      .ok ⟨block * g.sectorsPerBlock, g.sectorsPerBlock, [⟨ppn, 0, blockSize⟩]⟩ := by
  have hlt : block * g.sectorsPerBlock < 2 ^ 64 :=
    calc block * g.sectorsPerBlock ≤ block * 2 ^ 15 := Nat.mul_le_mul_left _ h.2
      _ < 2 ^ 49 * 2 ^ 15 := Nat.mul_lt_mul_of_pos_right hblock (by decide)
      _ = 2 ^ 64 := by decide
  have hpos : g.sectorsPerBlock ≠ 0 := Nat.pos_iff_ne_zero.mp h.1
  simp only [Ext4BlockGeometry.planRead, Ext4BlockGeometry.planRead.finish, ne_eq,
    not_true_eq_false, or_self, if_false, if_neg hpos, if_pos hlt]

lemma Faithful.insertExtentNode (h : Faithful g device request root table)
    (hins : table.insertExtentNode request.object block (blockAt g device block) = .ok table') :
    Faithful g device request root table' ∧
      (∃ m, mapExtentRoot (blockAt g device block) 0 = .ok m) ∧
      (∀ b n, table.nodes (request.object, b) = some n →
        table'.nodes (request.object, b) = some n) ∧
      table'.nodes (request.object, block) = some (blockAt g device block) ∧
      table'.rows = table.rows := by
  have hlen := length_blockAt g device block
  have htake : (blockAt g device block).take blockSize = blockAt g device block := by
    rw [← hlen, take_length]
  unfold Ext4MappingTable.insertExtentNode at hins
  rw [if_neg (by rw [hlen]; exact Nat.lt_irrefl _), htake] at hins
  rcases hmap : mapExtentRoot (blockAt g device block) 0 with e | m
  · simp [hmap] at hins
  simp only [hmap, Except.ok.injEq] at hins
  subst hins
  have hnodes (b : ℕ) : update table.nodes (request.object, block)
      (some (blockAt g device block)) (request.object, b) =
      if b = block then some (blockAt g device block) else table.nodes (request.object, b) := by
    by_cases hb : b = block
    · subst hb
      rw [update_self, if_pos rfl]
    · rw [update_of_ne (by simpa using hb), if_neg hb]
  refine ⟨⟨h.rooted, h.rows, fun b n hn => ?_⟩, ⟨m, rfl⟩, fun b n hn => ?_, ?_, rfl⟩
  · simp only [hnodes] at hn
    split_ifs at hn with hb
    · rw [hb]
      exact (Option.some.inj hn).symm
    · exact h.nodes b n hn
  · simp only [hnodes]
    split_ifs with hb
    · rw [h.nodes b n hn, hb]
    · exact hn
  · simp

/-! ### The resume loop -/

/-- How a read ends that began with this table and these frames: with the data, or for a hole with
what the frame began with, or a node of the tree if one was read first. -/
def Ends (g : Ext4BlockGeometry) (device : Device) (request : BackendPageRequest)
    (root : List UInt8) (ppn : ℕ) (table : Ext4MappingTable) (frames : ℕ → List UInt8)
    (result : Except Errno (ℕ → List UInt8)) : Prop :=
  (∀ frames', result = .ok frames' → (∃ block, fileMapping g device request root = .data block ∧
      frames' ppn = blockAt g device block) ∨
    fileMapping g device request root = .hole ∧
      (table.mapPage request = .hole ∧ frames' ppn = frames ppn ∨
        (∃ block, table.mapPage request = .metadataFirst block) ∧
        ∃ block m, frames' ppn = blockAt g device block ∧
          mapExtentRoot (blockAt g device block) 0 = .ok m)) ∧
  (Addressed g → request.generationHint.isSome → (fileContent g device request root).isSome →
    ∃ frames', result = .ok frames')

lemma ends_of_resolved (h : Faithful g device request root table)
    (htarget : request.target = .pageCache ppn 0 blockSize)
    (hlen : (frames ppn).length = blockSize)
    (hmap : ∀ block, table.mapPage request ≠ .metadataFirst block) (fuel : ℕ) :
    ∃ result, runPlan g device (fuel + 1) table frames (planPageIo g table request) = some result ∧
      Ends g device request root ppn table frames result := by
  have heq := h.mapPage_eq_fileMapping hmap
  unfold planPageIo planReadRequest
  rcases hgen : request.generationHint with _ | generation
  · exact ⟨.error .einval, rfl, by simp, by simp [hgen]⟩
  cases hm : table.mapPage request with
  | metadataFirst block => exact absurd hm (hmap block)
  | err errno =>
    refine ⟨.error errno, rfl, by simp, fun _ _ hcontent => ?_⟩
    simp [fileContent, ← heq, hm] at hcontent
  | hole =>
    refine ⟨.ok frames, by simp [htarget, runPlan], fun frames' hok => ?_, fun _ _ _ => ⟨_, rfl⟩⟩
    obtain rfl := Except.ok.inj hok
    exact .inr ⟨heq ▸ hm, .inl ⟨hm, rfl⟩⟩
  | data block =>
    have hdata : fileMapping g device request root = .data block := heq ▸ hm
    simp only [htarget]
    cases hread : g.planRead block (.pageCache ppn 0 blockSize) with
    | error errno =>
      refine ⟨.error errno, rfl, by simp, fun haddr => ?_⟩
      have hfits : block < 2 ^ 49 := by
        unfold fileMapping at hdata
        split_ifs at hdata with hpage
        exact followNodes_fits hpage (.inl hdata)
      rw [haddr.planRead hfits] at hread
      cases hread
    | ok bio =>
      obtain rfl := planRead_pageCache block hread
      refine ⟨.ok _, rfl, fun frames' hok => ?_, fun _ _ _ => ⟨_, rfl⟩⟩
      obtain rfl := Except.ok.inj hok
      exact .inl ⟨block, hdata, execute_page g device hlen block⟩

lemma mapExtentRoot_of_followNodes {logicalBlock : ℕ}
    (h : ∀ errno, followNodes nodes logicalBlock fuel node ≠ .err errno) :
    ∃ m, mapExtentRoot node 0 = .ok m := by
  rcases fuel with _ | fuel
  · exact absurd rfl (h .einval)
  refine exists_ok ?_
  rw [mapExtentRoot_isOk node 0 logicalBlock]
  cases hmap : mapExtentRoot node logicalBlock with
  | error e => exact absurd (by simp [followNodes, hmap]) (h (mapFormatError e))
  | ok m => rfl

lemma insertExtentNode_isOk (h : ∃ m, mapExtentRoot (blockAt g device block) 0 = .ok m)
    {errno : Errno} :
    table.insertExtentNode request.object block (blockAt g device block) ≠ .error errno := by
  obtain ⟨m, hm⟩ := h
  have hlen := length_blockAt g device block
  have htake : (blockAt g device block).take blockSize = blockAt g device block := by
    rw [← hlen, take_length]
  unfold Ext4MappingTable.insertExtentNode
  rw [if_neg (by rw [hlen]; exact Nat.lt_irrefl _), htake, hm]
  simp

lemma Ends.of_resumed {frames₁ : ℕ → List UInt8} {result : Except Errno (ℕ → List UInt8)}
    (h : Ends g device request root ppn table' frames₁ result)
    (hmap : table.mapPage request = .metadataFirst block)
    (hframe : frames₁ ppn = blockAt g device block)
    (hnode : ∃ m, mapExtentRoot (blockAt g device block) 0 = .ok m) :
    Ends g device request root ppn table frames result := by
  refine ⟨fun frames' hok => ?_, h.2⟩
  rcases h.1 frames' hok with hdata | ⟨hhole, ⟨-, hkept⟩ | ⟨-, hread⟩⟩
  · exact .inl hdata
  · obtain ⟨m, hm⟩ := hnode
    exact .inr ⟨hhole, .inr ⟨⟨block, hmap⟩, block, m, hkept.trans hframe, hm⟩⟩
  · exact .inr ⟨hhole, .inr ⟨⟨block, hmap⟩, hread⟩⟩

def Reaches (request : BackendPageRequest) (root : List UInt8) (table : Ext4MappingTable)
    (depth : ℕ) (node : List UInt8) : Prop :=
  ∀ nodes' : ℕ → Option (List UInt8),
    (∀ b n, table.nodes (request.object, b) = some n → nodes' b = some n) →
    followNodes nodes' request.startPage 8 root = followNodes nodes' request.startPage depth node

lemma Faithful.missing (h : Faithful g device request root table) {depth : ℕ}
    (hreach : Reaches request root table depth node)
    (hmap : table.mapPage request = .metadataFirst block) :
    block < 2 ^ 49 ∧ ∃ rest < depth, ∀ nodes' : ℕ → Option (List UInt8),
      (∀ b n, table.nodes (request.object, b) = some n → nodes' b = some n) →
      ∀ child, nodes' block = some child →
        followNodes nodes' request.startPage 8 root =
          followNodes nodes' request.startPage rest child := by
  obtain ⟨hrow, hpage⟩ := h.of_metadataFirst hmap
  have hown := hreach _ fun _ _ hn => hn
  rw [← h.mapPage_eq hrow hpage, hmap] at hown
  rcases followNodes_cases (fun block => table.nodes (request.object, block)) request.startPage
    depth node with hsame | ⟨block', hfirst, rest, hlt, hgo⟩
  · have hall := hsame (fun b => some (blockAt g device b)) fun b n hn => by rw [h.nodes b n hn]
    exact absurd (hall.trans hown.symm) (followNodes_all_ne _ _ _ _ _)
  obtain rfl : block = block' := Ext4ReadMapping.metadataFirst.inj (hown.trans hfirst)
  exact ⟨followNodes_fits hpage (.inr hfirst), rest, hlt, fun nodes' hle child hchild =>
    (hreach nodes' hle).trans (hgo nodes' hle child hchild)⟩

lemma runPlan_metadataFirst (htarget : request.target = .pageCache ppn 0 blockSize)
    (hlen : (frames ppn).length = blockSize) {generation : ℕ}
    (hgen : request.generationHint = some generation)
    (hmap : table.mapPage request = .metadataFirst block)
    (hread : g.planRead block (.pageCache ppn 0 blockSize) = .ok bio) :
    runPlan g device (fuel + 1) table frames (planPageIo g table request) =
      match table.insertExtentNode request.object block (blockAt g device block) with
      | .error errno => runPlan g device fuel table (execute device bio frames) (.err errno)
      | .ok table' =>
        runPlan g device fuel table' (execute device bio frames) (planPageIo g table' request) := by
  obtain rfl := planRead_pageCache block hread
  have hframe := execute_page g device hlen block
  have hplan : planPageIo g table request =
      .metadataFirst request ⟨block * g.sectorsPerBlock, g.sectorsPerBlock,
        [⟨ppn, 0, blockSize⟩]⟩ := by
    simp only [planPageIo, planReadRequest, hgen, hmap, htarget, hread]
  rw [hplan]
  simp only [runPlan, resumePageIo, Ext4MappingTable.resumeMetadata, hmap, htarget, ne_eq,
    not_true_eq_false, or_self, if_false, hframe]
  cases table.insertExtentNode request.object block (blockAt g device block) <;> rfl

/-- **The resume loop**. It ends within as many resumptions as nodes may still have to be read. -/
lemma ends_runPlan (htarget : request.target = .pageCache ppn 0 blockSize) (depth : ℕ) :
    ∀ (node : List UInt8) (table : Ext4MappingTable) (frames : ℕ → List UInt8),
      Faithful g device request root table → (frames ppn).length = blockSize →
      Reaches request root table depth node → ∀ fuel, depth < fuel →
        ∃ result, runPlan g device fuel table frames (planPageIo g table request) = some result ∧
          Ends g device request root ppn table frames result := by
  induction depth using Nat.strongRecOn with
  | ind depth ih =>
    intro node table frames h hlen hreach fuel hfuel
    rcases fuel with _ | fuel
    · omega
    by_cases hmap : ∃ block, table.mapPage request = .metadataFirst block
    · obtain ⟨block, hmap⟩ := hmap
      obtain ⟨hblock, rest, hlt, hgo⟩ := h.missing hreach hmap
      rcases hgen : request.generationHint with _ | generation
      · exact ⟨.error .einval, by simp [planPageIo, planReadRequest, hgen, runPlan], by simp,
          by simp [hgen]⟩
      rcases hread : g.planRead block (.pageCache ppn 0 blockSize) with errno | bio
      · refine ⟨.error errno, by
          simp [planPageIo, planReadRequest, hgen, hmap, htarget, hread, runPlan], by simp,
          fun haddr => ?_⟩
        rw [haddr.planRead hblock] at hread
        cases hread
      have hframe : execute device bio frames ppn = blockAt g device block := by
        rw [planRead_pageCache block hread]
        exact execute_page g device hlen block
      rw [runPlan_metadataFirst htarget hlen hgen hmap hread]
      cases hins : table.insertExtentNode request.object block (blockAt g device block) with
      | error errno =>
        rcases fuel with _ | fuel
        · omega
        refine ⟨.error errno, rfl, by simp, fun _ _ hcontent => ?_⟩
        have hfile := hgo (fun b => some (blockAt g device b))
          (fun b n hn => by rw [h.nodes b n hn]) _ rfl
        have hne (e : Errno) : followNodes (fun b => some (blockAt g device b))
            request.startPage rest (blockAt g device block) ≠ .err e := by
          intro he
          rw [fileContent, fileMapping, if_pos (h.of_metadataFirst hmap).2, hfile, he] at hcontent
          cases hcontent
        exact absurd hins (insertExtentNode_isOk (mapExtentRoot_of_followNodes hne))
      | ok table' =>
        obtain ⟨h', hnode, hgrow, hhas, -⟩ := h.insertExtentNode hins
        obtain ⟨result, hrun, hends⟩ := ih rest hlt (blockAt g device block) table'
          (execute device bio frames) h' (by rw [hframe]; exact length_blockAt g device block)
          (fun nodes' hle => hgo nodes' (fun b n hn => hle b n (hgrow b n hn)) _ (hle _ _ hhas))
          fuel (by omega)
        exact ⟨result, hrun, hends.of_resumed hmap hframe hnode⟩
    · exact ends_of_resolved h htarget hlen (fun block hb => hmap ⟨block, hb⟩) fuel

end file

def readPage (g : Ext4BlockGeometry) (device : Device) (table : Ext4MappingTable)
    (frames : ℕ → List UInt8) (request : BackendPageRequest) :
    Option (Except Errno (ℕ → List UInt8)) :=
  runPlan g device 9 table frames (planPageIo g table request)

/-- **What a read leaves in its frame**. Every read ends, and one of a page that can be resolved
completes, with the content of the file if and only if the page is mapped or its first lookup did
not need another node. -/
theorem readPage_content (g : Ext4BlockGeometry) (device : Device) (request : BackendPageRequest)
    (root : List UInt8) (table : Ext4MappingTable) (frames : ℕ → List UInt8) (ppn : ℕ)
    (htarget : request.target = .pageCache ppn 0 blockSize)
    (hzero : frames ppn = List.replicate blockSize 0)
    (h : Faithful g device request root table) :
    ∃ result, readPage g device table frames request = some result ∧
      (∀ frames', result = .ok frames' →
        ∃ content, fileContent g device request root = some content ∧
          (frames' ppn = content ↔ (∃ block, fileMapping g device request root = .data block) ∨
            ∀ block, table.mapPage request ≠ .metadataFirst block)) ∧
      (Addressed g → request.generationHint.isSome → (fileContent g device request root).isSome →
        ∃ frames', result = .ok frames') := by
  obtain ⟨result, hrun, hends⟩ := ends_runPlan htarget 8 root table frames h
    (by rw [hzero, length_replicate]) (fun _ _ => rfl) 9 (by decide)
  refine ⟨result, hrun, fun frames' hok => ?_, hends.2⟩
  rcases hends.1 frames' hok with ⟨block, hdata, hframe⟩ | ⟨hhole, hcase⟩
  · exact ⟨blockAt g device block, by simp [fileContent, hdata],
      ⟨fun _ => .inl ⟨block, hdata⟩, fun _ => hframe⟩⟩
  refine ⟨List.replicate blockSize 0, by simp [fileContent, hhole], ?_⟩
  rcases hcase with ⟨hmap, hkept⟩ | ⟨⟨block, hmap⟩, node, m, hnode, hm⟩
  · exact ⟨fun _ => .inr (by simp [hmap]), fun _ => hkept.trans hzero⟩
  constructor
  · intro hzeros
    rw [← hnode, hzeros] at hm
    exact absurd hm (mapExtentRoot_zeros _ _ _)
  rintro (⟨b, hb⟩ | hnone)
  · rw [hhole] at hb
    cases hb
  · exact absurd hmap (hnone block)

/-! ### Two files -/

def leafRoot : List UInt8 :=
  [0x0A, 0xF3, 1, 0, 4, 0, 0, 0, 0, 0, 0, 0, 3, 0, 0, 0, 2, 0, 0, 0, 100, 0, 0, 0]

def indexRoot : List UInt8 :=
  [0x0A, 0xF3, 1, 0, 4, 0, 1, 0, 0, 0, 0, 0, 0, 0, 0, 0, 5, 0, 0, 0, 0, 0, 0, 0]

def emptyLeaf : Page4K :=
  ⟨[0x0A, 0xF3, 0, 0, 84, 1, 0, 0, 0, 0, 0, 0] ++ List.replicate 4084 0, by
    rw [length_append, length_replicate]; rfl⟩

def rootOnly (root : List UInt8) : Ext4MappingTable :=
  ⟨fun _ => none, fun _ => some root, fun _ => none⟩

def requestOf (page : ℕ) : BackendPageRequest := ⟨1, page, some 1, .pageCache 7 0 blockSize⟩

lemma faithful_rootOnly (g : Ext4BlockGeometry) (device : Device) (page : ℕ) (root : List UInt8) :
    Faithful g device (requestOf page) root (rootOnly root) :=
  ⟨rfl, by simp [rootOnly], by simp [rootOnly]⟩

def zeroFrames : ℕ → List UInt8 := fun _ => List.replicate blockSize 0

/-- Page 4 of the first file is read from block 101. -/
theorem readPage_content_leaf :
    fileMapping ⟨8⟩ (fun _ _ => emptyLeaf) (requestOf 4) leafRoot = .data 101 ∧
      ∃ frames', readPage ⟨8⟩ (fun _ _ => emptyLeaf) (rootOnly leafRoot) zeroFrames (requestOf 4) =
        some (.ok frames') ∧ frames' 7 = emptyLeaf.bytes := by
  have hdata : fileMapping ⟨8⟩ (fun _ _ => emptyLeaf) (requestOf 4) leafRoot = .data 101 := by
    decide
  obtain ⟨result, hrun, hcontent, hdone⟩ := readPage_content ⟨8⟩ (fun _ _ => emptyLeaf)
    (requestOf 4) leafRoot (rootOnly leafRoot) zeroFrames 7 rfl rfl (faithful_rootOnly _ _ _ _)
  obtain ⟨frames', rfl⟩ := hdone ⟨by decide, by decide⟩ rfl (by simp [fileContent, hdata])
  obtain ⟨content, hfile, hiff⟩ := hcontent frames' rfl
  refine ⟨hdata, frames', hrun, (hiff.mpr (.inl ⟨101, hdata⟩)).trans ?_⟩
  simp only [fileContent, hdata, Option.some.injEq] at hfile
  exact hfile.symm

lemma mapExtentRoot_emptyLeaf (logicalBlock : ℕ) :
    mapExtentRoot emptyLeaf.bytes logicalBlock = .ok .hole := by
  have hheader : parse emptyLeaf.bytes = .ok ⟨0, 340, 0, 0⟩ := by
    rw [emptyLeaf, parse_append rfl]
    decide
  simp [mapExtentRoot, ExtentNode.parse, hheader, readEntries, Except.map, ExtentNode.map]

/-- Page 0 of the second file is a hole; its read completes with the leaf of the tree as content. -/
theorem hole_shows_node :
    fileMapping ⟨8⟩ (fun _ _ => emptyLeaf) (requestOf 0) indexRoot = .hole ∧
      ∃ frames', readPage ⟨8⟩ (fun _ _ => emptyLeaf) (rootOnly indexRoot) zeroFrames (requestOf 0) =
        some (.ok frames') ∧ frames' 7 = emptyLeaf.bytes ∧
          frames' 7 ≠ List.replicate blockSize 0 := by
  have hroot : mapExtentRoot indexRoot 0 = .ok (.needNode 5) := by decide
  have hhole : fileMapping ⟨8⟩ (fun _ _ => emptyLeaf) (requestOf 0) indexRoot = .hole := by
    simp [fileMapping, requestOf, followNodes, hroot, blockAt, mapExtentRoot_emptyLeaf]
  have hfirst : (rootOnly indexRoot).mapPage (requestOf 0) = .metadataFirst 5 := by decide
  have htarget : (requestOf 0).target = .pageCache 7 0 blockSize := rfl
  obtain ⟨result, hrun, hends⟩ := ends_runPlan htarget 8 indexRoot (rootOnly indexRoot) zeroFrames
    (faithful_rootOnly ⟨8⟩ (fun _ _ => emptyLeaf) 0 indexRoot)
    (by rw [zeroFrames, length_replicate]) (fun _ _ => rfl) 9 (by decide)
  obtain ⟨frames', rfl⟩ := hends.2 ⟨by decide, by decide⟩ rfl (by simp [fileContent, hhole])
  have hleaf : frames' 7 = emptyLeaf.bytes := by
    rcases hends.1 frames' rfl with ⟨block, hdata, -⟩ | ⟨-, ⟨hmap, -⟩ | ⟨-, block, m, hnode, -⟩⟩
    · rw [hhole] at hdata
      cases hdata
    · rw [hfirst] at hmap
      cases hmap
    · exact hnode
  refine ⟨hhole, frames', hrun, hleaf, fun hzeros => ?_⟩
  have hok := mapExtentRoot_emptyLeaf 0
  rw [← hleaf, hzeros] at hok
  exact mapExtentRoot_zeros _ _ _ hok

end TxKernel.Ext4.Planner
