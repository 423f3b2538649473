import TxKernel.Ext4.Directory.Blocks

/-!
The edits of a directory block as edits of its row of records.
-/

namespace TxKernel.Ext4.Directory

open Bytes List Record Option

namespace Record

def new (inode recLen : ℕ) (fileType : UInt8) (name : List UInt8) : Record :=
  ⟨inode, UInt8.ofNat name.length, fileType, name ++ List.replicate (recLen - 8 - name.length) 0⟩

def shrink (r : Record) : Record := { r with body := r.body.take (r.used - 8) }

def absorb (r next : Record) : Record := { r with body := r.body ++ next.bytes }

def tail (seed : UInt32) (c : DirContext) (rs : List Record) : Record :=
  ⟨0, 0, dirCsumType, le 4 (dirblockCsum32 seed c.inode c.generation (layout rs)).toNat⟩

variable {r : Record} {name : List UInt8} {recLen inode : ℕ} {fileType : UInt8}

lemma eight_le_sizeFor (n : ℕ) : 8 + n ≤ sizeFor n := by
  unfold sizeFor
  omega

lemma recLen_new (inode : ℕ) (fileType : UInt8) (h : 8 + name.length ≤ recLen) :
    (new inode recLen fileType name).recLen = recLen := by
  simp [new, Record.recLen]
  omega

lemma name_new (h : name.length ≤ 255) : (new inode recLen fileType name).name = name := by
  have : (UInt8.ofNat name.length).toNat = name.length := by
    rw [UInt8.toNat_ofNat']
    omega
  simp [new, Record.name, this]

lemma wellFormed_new (hinode : inode < 2 ^ 32) (hname : 0 < name.length) (hle : name.length ≤ 255)
    (hfits : sizeFor name.length ≤ recLen) (haligned : 4 ∣ recLen) :
    (new inode recLen fileType name).WellFormed := by
  have hsize := eight_le_sizeFor name.length
  have hlen := recLen_new inode fileType (hsize.trans hfits)
  have htoNat : (UInt8.ofNat name.length).toNat = name.length := by
    rw [UInt8.toNat_ofNat']
    omega
  refine ⟨hinode, ?_, by rwa [hlen], fun _ => ⟨?_, ?_⟩⟩
  · rw [hlen]
    omega
  · simpa [new, htoNat]
  · simp [new, htoNat]

section

variable (h : r.WellFormed) (hlive : r.inode ≠ 0)
include h hlive

lemma WellFormed.used_le : r.used ≤ r.recLen := by
  have haligned := h.aligned
  have hname := (h.named hlive).2
  unfold used sizeFor
  simp only [recLen] at haligned ⊢
  omega

lemma WellFormed.length_name : r.name.length = r.nameLen.toNat := by
  simp [name, (h.named hlive).2]

lemma WellFormed.recLen_shrink : r.shrink.recLen = r.used := by
  have hle := h.used_le hlive
  have hsize := eight_le_sizeFor r.nameLen.toNat
  simp only [recLen, shrink, length_take, used] at hle ⊢
  omega

end

lemma name_shrink (r : Record) : r.shrink.name = r.name := by
  have hsize := eight_le_sizeFor r.nameLen.toNat
  simp only [name, shrink, take_take, used]
  rw [Nat.min_eq_left (by omega)]

lemma WellFormed.shrink (h : r.WellFormed) (hlive : r.inode ≠ 0) : r.shrink.WellFormed := by
  have hlen := h.recLen_shrink hlive
  have hname := h.named hlive
  have hsize := eight_le_sizeFor r.nameLen.toNat
  refine ⟨h.inode_lt, ?_, ?_, fun _ => ⟨hname.1, ?_⟩⟩
  · rw [hlen]
    unfold used sizeFor
    omega
  · rw [hlen]
    unfold used sizeFor
    omega
  · simp only [Record.shrink, length_take, used]
    omega

lemma recLen_absorb (r next : Record) : (r.absorb next).recLen = r.recLen + next.recLen := by
  simp [recLen, absorb]
  omega

lemma WellFormed.absorb {next : Record} (h : r.WellFormed) (hnext : next.WellFormed) :
    (r.absorb next).WellFormed := by
  have h1 := h.le_recLen
  refine ⟨h.inode_lt, ?_, ?_, fun hlive => ⟨(h.named hlive).1, ?_⟩⟩
  · rw [recLen_absorb]
    omega
  · rw [recLen_absorb]
    exact Nat.dvd_add h.aligned hnext.aligned
  have := (h.named hlive).2
  simp only [Record.absorb, length_append]
  omega

@[simp] lemma recLen_tail (seed : UInt32) (c : DirContext) (rs : List Record) :
    (tail seed c rs).recLen = 12 := by
  simp [tail, recLen]

lemma wellFormed_tail (seed : UInt32) (c : DirContext) (rs : List Record) :
    (tail seed c rs).WellFormed :=
  ⟨by simp [tail], by simp, by simp, fun h => absurd rfl h⟩

end Record

/-! ### Scanning -/

/-- What a scan that stands at `off` reads of the record there. -/
structure Scans (page : List UInt8) (off : ℕ) (r : Record) : Prop where
  header : off + 8 ≤ blockSize
  recLen : readLe 2 page (off + 4) = .ok r.recLen
  inside : ¬ (r.recLen = 0 ∨ blockSize < off + r.recLen)
  inode : readLe 4 page off = .ok r.inode
  nameLen : page.getD (off + 6) 0 = r.nameLen
  fileType : page.getD (off + 7) 0 = r.fileType
  name_le : r.inode ≠ 0 → off + 8 + r.nameLen.toNat ≤ blockSize
  name : r.inode ≠ 0 → (page.drop (off + 8)).take r.nameLen.toNat = r.name

variable {rs : List Record} {r : Record}

lemma scans_cons (pre : List UInt8) (h : ∀ r' ∈ r :: rs, r'.WellFormed)
    (hfull : pre.length + size (r :: rs) = blockSize) :
    Scans (pre ++ layout (r :: rs)) pre.length r := by
  have hr := h r (.head _)
  have hlen := hr.le_recLen
  have hdata : pre ++ layout (r :: rs) = pre ++ r.bytes ++ layout rs := by simp
  rw [size_cons] at hfull
  have hblock : blockSize = 4096 := rfl
  refine ⟨by omega, readLe_recLen hdata rfl (by omega), by omega,
    readLe_inode hdata rfl hr.inode_lt, getD_nameLen hdata rfl, getD_fileType hdata rfl,
    fun hlive => ?_, fun hlive => ?_⟩
  · have hname := (hr.named hlive).2
    simp only [recLen] at hfull
    omega
  · rw [drop_body hdata rfl, take_append_of_le_length (hr.named hlive).2, name]

lemma Scans.name_iff {page : List UInt8} {off : ℕ} (h : Scans page off r) (hr : r.WellFormed)
    (hlive : r.inode ≠ 0) (name : List UInt8) :
    (off + 8 + r.nameLen.toNat ≤ blockSize ∧ r.nameLen.toNat = name.length ∧
      (page.drop (off + 8)).take r.nameLen.toNat = name) ↔ r.name = name := by
  rw [h.name hlive]
  constructor
  · exact fun hs => hs.2.2
  intro heq
  exact ⟨h.name_le hlive, by rw [← heq, hr.length_name hlive], heq⟩

/-! ### Insertion -/

section append

variable (name : List UInt8) (newInode : ℕ) (fileType : UInt8)

def appendRecords : List Record → Result (Option (List Record))
  | [] => .ok none
  | r :: rs =>
    if r.inode = 0 then
      if Record.sizeFor name.length ≤ r.recLen then
        .ok (some (Record.new newInode r.recLen fileType name :: rs))
      else (appendRecords rs).map (Option.map (r :: ·))
    else if r.name = name then .error .unsupported
    else if Record.sizeFor name.length ≤ r.recLen - r.used then
      .ok (some (r.shrink :: Record.new newInode (r.recLen - r.used) fileType name :: rs))
    else (appendRecords rs).map (Option.map (r :: ·))

variable {name newInode fileType} {pre : List UInt8} {r : Record}

lemma splice_mid {d post : List UInt8} (mid : List UInt8) {off : ℕ} (hoff : pre.length = off)
    (hlen : d.length = mid.length) : splice (pre ++ mid ++ post) off d = pre ++ d ++ post := by
  subst hoff
  rw [splice, hlen, drop_left' (by simp), append_assoc pre mid, take_left' rfl]

lemma bytes_new (inode : ℕ) (fileType : UInt8) {len : ℕ} (hle : 8 + name.length ≤ len) :
    (new inode len fileType name).bytes = le 4 inode ++ le 2 len ++
      [UInt8.ofNat name.length, fileType] ++ name ++ replicate (len - 8 - name.length) 0 := by
  rw [bytes, recLen_new inode fileType hle]
  simp [new]

lemma encodeDirEntry_eq {recLen : ℕ} {out : List UInt8} (hname : name.length ≤ 255)
    (hout : out.length = recLen) (hfits : 8 + name.length ≤ recLen) :
    encodeDirEntry newInode recLen fileType name out =
      .ok (new newInode recLen fileType name).bytes := by
  have hlen := recLen_new newInode fileType hfits
  have hbytes := bytes_new newInode fileType hfits
  have hfill : (new newInode recLen fileType name).bytes.length = out.length := by
    rw [length_bytes, hlen, hout]
  have hsplice : splice ([] ++ out ++ []) 0 (new newInode recLen fileType name).bytes =
      [] ++ (new newInode recLen fileType name).bytes ++ [] := splice_mid out rfl hfill
  rw [nil_append, append_nil, nil_append, append_nil, hbytes] at hsplice
  rw [encodeDirEntry, if_neg (by omega), hsplice, hbytes]

lemma map_cons (x : Result (Option (List Record))) (pre : List UInt8) (r : Record) :
    x.map (Option.map fun rs => pre ++ r.bytes ++ layout rs) =
      (x.map (Option.map (r :: ·))).map (Option.map fun rs => pre ++ layout rs) := by
  rcases x with e | _ | rs <;> simp [Except.map]

lemma splice_recLen (len : ℕ) :
    splice (pre ++ layout (r :: rs)) (pre.length + 4) (le 2 len) =
      pre ++ (le 4 r.inode ++ le 2 len ++ [r.nameLen, r.fileType] ++ r.body) ++ layout rs := by
  have hsplit : pre ++ layout (r :: rs) = (pre ++ le 4 r.inode) ++ le 2 r.recLen ++
      ([r.nameLen, r.fileType] ++ r.body ++ layout rs) := by simp [bytes]
  rw [hsplit, splice_mid (le 2 r.recLen) (by simp) (by simp)]
  simp

lemma splice_split (pre : List UInt8) {new : Record} (rs : List Record) (hr : r.WellFormed)
    (hlive : r.inode ≠ 0) (hnew : new.recLen = r.recLen - r.used) :
    let page := splice (pre ++ layout (r :: rs)) (pre.length + 4) (le 2 r.used)
    ((page.drop (pre.length + r.used)).take (r.recLen - r.used)).length = r.recLen - r.used ∧
      splice page (pre.length + r.used) new.bytes = pre ++ layout (r.shrink :: new :: rs) := by
  have hlen := hr.recLen_shrink hlive
  have hshrink : le 4 r.inode ++ le 2 r.used ++ [r.nameLen, r.fileType] ++ r.body =
      r.shrink.bytes ++ r.body.drop (r.used - 8) := by
    rw [bytes, hlen]
    simp [shrink]
  have hrest : (r.body.drop (r.used - 8)).length = r.recLen - r.used := by
    have := eight_le_sizeFor r.nameLen.toNat
    simp only [length_drop, recLen, used]
    omega
  intro page
  have hpage : page = (pre ++ r.shrink.bytes) ++ r.body.drop (r.used - 8) ++ layout rs := by
    simp only [page, splice_recLen, hshrink]
    simp
  have hoff : (pre ++ r.shrink.bytes).length = pre.length + r.used := by
    rw [length_append, length_bytes, hlen]
  rw [hpage]
  constructor
  · rw [append_assoc, drop_left' hoff, length_take, length_append, hrest]
    omega
  · rw [splice_mid _ hoff (by rw [length_bytes, hnew, hrest])]
    simp

/-- **Insertion**: the scan edits the row of records. -/
lemma appendIn_layout (hname : name.length ≤ 255) (pre : List UInt8) (rs : List Record)
    (h : ∀ r ∈ rs, r.WellFormed) (hfull : pre.length + size rs = blockSize) (fuel : ℕ)
    (hfuel : rs.length ≤ fuel) :
    appendIn name newInode fileType (pre ++ layout rs) fuel pre.length =
      (appendRecords name newInode fileType rs).map (Option.map fun rs' => pre ++ layout rs') := by
  induction rs generalizing pre fuel with
  | nil =>
    rcases fuel with _ | fuel
    · rfl
    rw [size_nil] at hfull
    rw [appendIn, if_neg (by omega)]
    rfl
  | cons r rs ih =>
    rcases fuel with _ | fuel
    · simp at hfuel
    have hr := h r (.head _)
    have hs := scans_cons pre h hfull
    have hnext : appendIn name newInode fileType (pre ++ layout (r :: rs)) fuel
        (pre.length + r.recLen) = ((appendRecords name newInode fileType rs).map
          (Option.map (r :: ·))).map (Option.map fun rs' => pre ++ layout rs') := by
      have := ih (pre ++ r.bytes) (fun r' h' => h r' (.tail _ h'))
        (by simpa [Nat.add_assoc] using hfull) fuel (by simpa using hfuel)
      rw [length_append, length_bytes, map_cons] at this
      simpa using this
    have hsize := eight_le_sizeFor name.length
    rw [appendIn, if_pos hs.header, hs.recLen]
    simp only [ok_bind]
    rw [if_neg hs.inside, hs.inode]
    simp only [ok_bind, appendRecords]
    by_cases hinode : r.inode = 0
    · rw [if_pos hinode, if_pos hinode]
      by_cases hfits : sizeFor name.length ≤ r.recLen
      · have hslot : (((pre ++ layout (r :: rs)).drop pre.length).take r.recLen).length =
            r.recLen := by
          rw [drop_left' rfl]
          simp
        rw [if_pos hfits, if_pos hfits, encodeDirEntry_eq hname hslot (hsize.trans hfits)]
        simp only [ok_bind, pure_eq_ok, Except.map, map_some]
        rw [layout_cons, ← append_assoc, splice_mid r.bytes rfl (by
          rw [length_bytes, length_bytes, recLen_new _ _ (hsize.trans hfits)])]
        simp
      · rw [if_neg hfits, if_neg hfits, hnext]
    · rw [if_neg hinode, if_neg hinode, hs.nameLen]
      by_cases hsame : r.name = name
      · rw [if_pos ((hs.name_iff hr hinode name).mpr hsame), if_pos hsame]
        rfl
      rw [if_neg (fun hc => hsame ((hs.name_iff hr hinode name).mp hc)), if_neg hsame]
      have hused : sizeFor r.nameLen.toNat = r.used := rfl
      simp only [hused]
      by_cases hfits : sizeFor name.length ≤ r.recLen - r.used
      · obtain ⟨hslot, hsplit⟩ := splice_split pre rs hr hinode
          (recLen_new newInode fileType (hsize.trans hfits))
        rw [if_pos hfits, if_pos hfits, encodeDirEntry_eq hname hslot (hsize.trans hfits)]
        exact congrArg (fun x => Except.ok (some x)) hsplit
      · rw [if_neg hfits, if_neg hfits, hnext]

end append

/-! ### Removal -/

section remove

variable (name : List UInt8)

def removeAfter : Record → List Record → Option (ℕ × List Record)
  | _, [] => none
  | prev, r :: rs =>
    if r.inode ≠ 0 ∧ r.name = name then some (r.inode, prev.absorb r :: rs)
    else (removeAfter r rs).map fun x => (x.1, prev :: x.2)

def removeRecords : List Record → Option (ℕ × List Record)
  | [] => none
  | r :: rs =>
    if r.inode ≠ 0 ∧ r.name = name then some (r.inode, { r with inode := 0 } :: rs)
    else removeAfter name r rs

variable {name}

lemma bytes_absorb (r next : Record) : (r.absorb next).bytes =
    le 4 r.inode ++ le 2 (r.recLen + next.recLen) ++ [r.nameLen, r.fileType] ++ r.body ++
      next.bytes := by
  rw [bytes, recLen_absorb]
  simp [absorb]

lemma splice_inode (pre : List UInt8) (r : Record) (rs : List Record) (inode : ℕ) :
    splice (pre ++ layout (r :: rs)) pre.length (le 4 inode) =
      pre ++ layout ({ r with inode } :: rs) := by
  have hsplit : pre ++ layout (r :: rs) = pre ++ le 4 r.inode ++
      (le 2 r.recLen ++ [r.nameLen, r.fileType] ++ r.body ++ layout rs) := by simp [bytes]
  rw [hsplit, splice_mid (le 4 r.inode) rfl (by simp)]
  simp [bytes, recLen]

lemma Scans.live_iff {page : List UInt8} {off : ℕ} {r : Record} (h : Scans page off r)
    (hr : r.WellFormed) (name : List UInt8) :
    (r.inode ≠ 0 ∧ off + 8 + r.nameLen.toNat ≤ blockSize ∧ r.nameLen.toNat = name.length ∧
      (page.drop (off + 8)).take r.nameLen.toNat = name) ↔ r.inode ≠ 0 ∧ r.name = name := by
  constructor
  · exact fun ⟨hlive, hc⟩ => ⟨hlive, (h.name_iff hr hlive name).mp hc⟩
  · exact fun ⟨hlive, heq⟩ => ⟨hlive, (h.name_iff hr hlive name).mpr heq⟩

lemma removeIn_after (name : List UInt8) (pre : List UInt8) (prev : Record) (rs : List Record)
    (h : ∀ r ∈ prev :: rs, r.WellFormed) (hfull : pre.length + size (prev :: rs) = blockSize)
    (fuel : ℕ) (hfuel : rs.length ≤ fuel) :
    removeIn name (pre ++ layout (prev :: rs)) fuel (some pre.length) (pre.length + prev.recLen) =
      .ok ((removeAfter name prev rs).map fun x => (x.1, pre ++ layout x.2)) := by
  induction rs generalizing pre prev fuel with
  | nil =>
    rcases fuel with _ | fuel
    · rfl
    rw [size_cons, size_nil] at hfull
    rw [removeIn, if_neg (by omega)]
    rfl
  | cons r rs ih =>
    rcases fuel with _ | fuel
    · simp at hfuel
    have hprev := scans_cons pre h hfull
    have hrest : ∀ r' ∈ r :: rs, r'.WellFormed := fun r' h' => h r' (.tail _ h')
    have hpage : pre ++ layout (prev :: r :: rs) = (pre ++ prev.bytes) ++ layout (r :: rs) := by
      simp
    have hoff : (pre ++ prev.bytes).length = pre.length + prev.recLen := by simp
    have hfull' : (pre ++ prev.bytes).length + size (r :: rs) = blockSize := by
      rw [hoff, Nat.add_assoc, ← size_cons, hfull]
    have hs := scans_cons _ hrest hfull'
    rw [← hpage, hoff] at hs
    have hnext := ih (pre ++ prev.bytes) r hrest hfull' fuel (by simpa using hfuel)
    rw [← hpage, hoff] at hnext
    rw [removeIn, if_pos hs.header, hs.recLen]
    simp only [ok_bind]
    rw [if_neg hs.inside, hs.inode]
    simp only [ok_bind, hs.nameLen, hs.live_iff (hrest r (.head _)) name, removeAfter]
    by_cases hmatch : r.inode ≠ 0 ∧ r.name = name
    · rw [if_pos hmatch, if_pos hmatch, hprev.recLen]
      simp only [ok_bind, pure_eq_ok, splice_recLen]
      simp [bytes_absorb]
    · rw [if_neg hmatch, if_neg hmatch, hnext]
      simp [Option.map_map, Function.comp_def]

lemma removeIn_layout (h : Tiled rs) (name : List UInt8) :
    removeIn name (layout rs) blockSize none 0 =
      .ok ((removeRecords name rs).map fun x => (x.1, layout x.2)) := by
  have hlen := length_le_size h.wellFormed
  have hfull := h.full
  rcases rs with _ | ⟨r, rs⟩
  · cases hfull
  have hs := scans_cons [] h.wellFormed (by simpa using hfull)
  have hnext := removeIn_after name [] r rs h.wellFormed (by simpa using hfull)
    (blockSize - 1) (by rw [hfull, length_cons] at hlen; omega)
  simp only [nil_append, length_nil, Nat.zero_add] at hs hnext
  have hfuel : blockSize = blockSize - 1 + 1 := rfl
  rw [hfuel, removeIn, if_pos hs.header, hs.recLen]
  simp only [ok_bind]
  rw [if_neg hs.inside, hs.inode]
  simp only [ok_bind, hs.nameLen, hs.live_iff (h.wellFormed r (.head _)) name, removeRecords]
  by_cases hmatch : r.inode ≠ 0 ∧ r.name = name
  · rw [if_pos hmatch, if_pos hmatch]
    have hzero : replicate 4 (0 : UInt8) = le 4 0 := by decide
    have hsplice := splice_inode [] r rs 0
    simp only [nil_append, length_nil] at hsplice
    simp only [pure_eq_ok, hzero, hsplice, map_some]
  · rw [if_neg hmatch, if_neg hmatch, Nat.zero_add, hnext]

end remove

/-! ### Replacement -/

def replaceRecords (name : List UInt8) (expected replacement : ℕ) :
    List Record → Result (Option (List Record))
  | [] => .ok none
  | r :: rs =>
    if r.inode ≠ 0 ∧ r.name = name then
      if r.inode ≠ expected then .error .corrupt
      else if r.fileType = 2 then .error .unsupported
      else .ok (some ({ r with inode := replacement } :: rs))
    else (replaceRecords name expected replacement rs).map (Option.map (r :: ·))

lemma replaceIn_layout (name : List UInt8) (expected replacement : ℕ) (pre : List UInt8)
    (rs : List Record) (h : ∀ r ∈ rs, r.WellFormed) (hfull : pre.length + size rs = blockSize)
    (fuel : ℕ) (hfuel : rs.length ≤ fuel) :
    replaceIn name expected replacement (pre ++ layout rs) fuel pre.length =
      (replaceRecords name expected replacement rs).map
        (Option.map fun rs' => pre ++ layout rs') := by
  induction rs generalizing pre fuel with
  | nil =>
    rcases fuel with _ | fuel
    · rfl
    rw [size_nil] at hfull
    rw [replaceIn, if_neg (by omega)]
    rfl
  | cons r rs ih =>
    rcases fuel with _ | fuel
    · simp at hfuel
    have hr := h r (.head _)
    have hs := scans_cons pre h hfull
    have hnext : replaceIn name expected replacement (pre ++ layout (r :: rs)) fuel
        (pre.length + r.recLen) = ((replaceRecords name expected replacement rs).map
          (Option.map (r :: ·))).map (Option.map fun rs' => pre ++ layout rs') := by
      have := ih (pre ++ r.bytes) (fun r' h' => h r' (.tail _ h'))
        (by simpa [Nat.add_assoc] using hfull) fuel (by simpa using hfuel)
      rw [length_append, length_bytes, map_cons] at this
      simpa using this
    rw [replaceIn, if_pos hs.header, hs.recLen]
    simp only [ok_bind]
    rw [if_neg hs.inside, hs.inode]
    simp only [ok_bind, hs.nameLen, hs.fileType, replaceRecords]
    by_cases hlive : r.inode = 0
    · rw [if_pos hlive, if_neg (fun hc => hc.1 hlive), hnext]
    have hle := hs.name_le hlive
    have hiff := hs.name_iff hr hlive name
    rw [if_neg hlive, if_neg (by omega)]
    by_cases hsame : r.name = name
    · have hmatch : r.inode ≠ 0 ∧ r.name = name := ⟨hlive, hsame⟩
      rw [if_pos (hiff.mpr hsame).2, if_pos hmatch]
      by_cases hexp : r.inode ≠ expected
      · rw [if_pos hexp, if_pos hexp]
        rfl
      rw [if_neg hexp, if_neg hexp]
      by_cases htype : r.fileType = 2
      · rw [if_pos htype, if_pos htype]
        rfl
      · rw [if_neg htype, if_neg htype, splice_inode]
        rfl
    · rw [if_neg (fun hc => hsame (hiff.mp ⟨hle, hc⟩)), if_neg (fun hc => hsame hc.2), hnext]

/-! ### The tail -/

section tail

variable {init : List Record} {t : Record}

lemma shortenLast_layout (pre : List UInt8) (hinit : ∀ r ∈ init, r.WellFormed) (ht : t.WellFormed)
    (hlen : t.recLen = 12) (hfull : pre.length + size init = tailOffset) (fuel : ℕ)
    (hfuel : init.length < fuel) :
    shortenLast (pre ++ layout (init ++ [t])) fuel pre.length =
      .ok (pre ++ layout (init ++ [t])) := by
  have hblock : blockSize = 4096 := rfl
  have htail : tailOffset = 4084 := rfl
  induction init generalizing pre fuel with
  | nil =>
    rcases fuel with _ | fuel
    · simp at hfuel
    rw [size_nil] at hfull
    have hs : Scans (pre ++ layout [t]) pre.length t :=
      scans_cons pre (by simpa using ht) (by simp [hlen]; omega)
    rw [nil_append, shortenLast, if_pos hs.header, hs.recLen]
    simp only [ok_bind, hlen]
    rw [if_neg (by omega), if_neg (by omega), if_neg (by omega), if_pos (by omega)]
    rfl
  | cons r rs ih =>
    rcases fuel with _ | fuel
    · simp at hfuel
    have hr := (hinit r (.head _)).le_recLen
    have hwf : ∀ r' ∈ r :: (rs ++ [t]), r'.WellFormed := by
      intro r' hr'
      rcases mem_append.mp (show r' ∈ (r :: rs) ++ [t] from hr') with h | h
      · exact hinit r' h
      · exact mem_singleton.mp h ▸ ht
    rw [size_cons] at hfull
    have hs := scans_cons pre hwf (by simp [hlen]; omega)
    have hnext := ih (pre ++ r.bytes) (fun r' h' => hinit r' (.tail _ h'))
      (by rw [length_append, length_bytes]; omega) fuel (by simpa using hfuel)
    rw [length_append, length_bytes, append_assoc, ← layout_cons] at hnext
    rw [cons_append, shortenLast, if_pos hs.header, hs.recLen]
    simp only [ok_bind]
    rw [if_neg (by omega), if_neg (by omega), if_neg (by omega), if_neg (by omega), hnext]

def tailHeader : List UInt8 := [0, 0, 0, 0] ++ le 2 12 ++ [0, dirCsumType]

lemma bytes_tail (seed : UInt32) (c : DirContext) (rs : List Record) :
    (tail seed c rs).bytes =
      tailHeader ++ le 4 (dirblockCsum32 seed c.inode c.generation (layout rs)).toNat := by
  have hzero : le 4 0 = [0, 0, 0, 0] := by decide
  rw [Record.bytes, Record.recLen_tail]
  simp [Record.tail, tailHeader, hzero]

lemma ensureDirblockChecksumTail_layout (hinit : ∀ r ∈ init, r.WellFormed) (ht : t.WellFormed)
    (hlen : t.recLen = 12) (hfull : size init = tailOffset) :
    ∃ old : List UInt8, old.length = 4 ∧
      ensureDirblockChecksumTail (layout (init ++ [t])) =
        .ok (layout init ++ tailHeader ++ old) := by
  have hoff : (layout init).length = tailOffset := by rw [length_layout, hfull]
  have hdata : layout (init ++ [t]) = layout init ++ t.bytes ++ [] := by simp
  have hbody : t.body.length = 4 := by
    simp only [recLen] at hlen
    omega
  rw [ensureDirblockChecksumTail, readLe_recLen hdata hoff (by omega)]
  simp only [ok_bind]
  by_cases htest : slice (layout (init ++ [t])) tailOffset 4 = some [0, 0, 0, 0] ∧ t.recLen = 12 ∧
      (layout (init ++ [t])).getD (tailOffset + 6) 0 = 0 ∧
      (layout (init ++ [t])).getD (tailOffset + 7) 0 = dirCsumType
  · rw [if_pos htest]
    obtain ⟨hzero, -, hname, htype⟩ := htest
    rw [getD_nameLen hdata hoff] at hname
    rw [getD_fileType hdata hoff] at htype
    have hinode : le 4 t.inode = [0, 0, 0, 0] := by
      have hsplit : layout (init ++ [t]) = layout init ++ le 4 t.inode ++
          (le 2 t.recLen ++ [t.nameLen, t.fileType] ++ t.body) := by simp [bytes]
      rw [hsplit, slice_append hoff (by simp)] at hzero
      exact some.inj hzero
    refine ⟨t.body, hbody, ?_⟩
    simp [bytes, tailHeader, hinode, hlen, hname, htype]
  · rw [if_neg htest]
    have hcount : init.length < blockSize := by
      have := length_le_size hinit
      have : tailOffset + 12 = blockSize := rfl
      omega
    have hshort := shortenLast_layout [] hinit ht hlen (by simpa using hfull) blockSize hcount
    simp only [nil_append, length_nil] at hshort
    rw [hshort]
    refine ⟨[0, 0, 0, 0], rfl, ?_⟩
    have hsplice : splice (layout init ++ t.bytes ++ []) tailOffset (tailHeader ++ [0, 0, 0, 0]) =
        layout init ++ (tailHeader ++ [0, 0, 0, 0]) ++ [] :=
      splice_mid t.bytes hoff (by rw [length_bytes, hlen]; rfl)
    simpa [tailHeader] using hsplice

variable {seed : UInt32}

lemma refreshDirblockChecksum_of_ensure (c : DirContext) (hseed : c.seed = some seed)
    {block old : List UInt8} (hold : old.length = 4) (hfull : size init = tailOffset)
    (hensure : ensureDirblockChecksumTail block = .ok (layout init ++ tailHeader ++ old)) :
    refreshDirblockChecksum c block = .ok (layout (init ++ [tail seed c init])) := by
  have hoff : (layout init).length = tailOffset := by rw [length_layout, hfull]
  have hend : (layout init ++ tailHeader).length = blockSize - 4 := by
    rw [length_append, hoff]
    rfl
  have hsplice (checksum : ℕ) : splice (layout init ++ tailHeader ++ old ++ []) (blockSize - 4)
      (le 4 checksum) = layout init ++ tailHeader ++ le 4 checksum ++ [] :=
    splice_mid old hend (by simp [hold])
  simp only [append_nil] at hsplice
  simp only [refreshDirblockChecksum, hseed, hensure, ok_bind, append_assoc]
  rw [take_left' hoff, ← append_assoc, hsplice]
  simp [bytes_tail]

/-! ### A new block -/

section blank

variable {name : List UInt8} {inode : ℕ} {fileType : UInt8}

lemma ensureDirblockChecksumTail_new (hname : 0 < name.length) (hle : name.length ≤ 255)
    (hinode : inode < 2 ^ 32) :
    ensureDirblockChecksumTail (layout [new inode blockSize fileType name]) =
      .ok (layout [new inode tailOffset fileType name] ++ tailHeader ++ [0, 0, 0, 0]) := by
  have hblock : blockSize = 4096 := rfl
  have htail : tailOffset = 4084 := rfl
  have hsize : sizeFor name.length ≤ tailOffset := by
    unfold sizeFor
    omega
  have htoNat : (UInt8.ofNat name.length).toNat = name.length := by
    rw [UInt8.toNat_ofNat']
    omega
  have hlen := recLen_new inode fileType (show 8 + name.length ≤ blockSize by omega)
  have hwf : (new inode blockSize fileType name).WellFormed :=
    wellFormed_new hinode hname hle (by omega) (by decide)
  have hs : Scans ([] ++ layout [new inode blockSize fileType name]) 0 _ :=
    scans_cons [] (by simpa using hwf) (by simp [hlen])
  have hzeros : replicate (blockSize - 8 - name.length) (0 : UInt8) =
      replicate (tailOffset - 8 - name.length) 0 ++ replicate 12 0 := by
    rw [replicate_append_replicate]
    congr 1
    omega
  have hfield : readLe 2 (layout [new inode blockSize fileType name]) (tailOffset + 4) =
      .ok 0 := by
    have hfree : replicate 12 (0 : UInt8) = [0, 0, 0, 0] ++ le 2 0 ++ replicate 6 0 := by
      decide
    have hread := readLe_append (le 4 inode ++ le 2 blockSize ++
      [UInt8.ofNat name.length, fileType] ++ name ++
      replicate (tailOffset - 8 - name.length) 0 ++ [0, 0, 0, 0]) (replicate 6 0)
      (by simp; omega : _ = tailOffset + 4) (show 0 < 256 ^ 2 by decide)
    rw [layout_cons, layout_nil, bytes_new inode fileType (by omega), hzeros, hfree]
    simpa using hread
  have hshort : shortenLast (layout [new inode blockSize fileType name]) blockSize 0 =
      .ok (layout [new inode tailOffset fileType name] ++ replicate 12 0) := by
    have hsplice : splice ([] ++ layout [new inode blockSize fileType name]) (0 + 4)
        (le 2 tailOffset) = _ := splice_recLen tailOffset
    have hfuel : blockSize = blockSize - 1 + 1 := rfl
    rw [nil_append] at hs hsplice
    rw [hfuel, shortenLast, if_pos hs.header, ← hfuel, hs.recLen]
    simp only [ok_bind, hlen, hs.nameLen]
    rw [if_neg (by omega), if_neg (by omega), if_pos (by omega), if_neg (by omega), if_neg]
    · rw [← tailOffset, hsplice, layout_cons, layout_nil, bytes_new inode fileType (by omega)]
      simp [new, hzeros]
    have hused : sizeFor (new inode blockSize fileType name).nameLen.toNat =
        sizeFor name.length := congrArg sizeFor htoNat
    omega
  have hoff : (layout [new inode tailOffset fileType name]).length = tailOffset := by
    simp [recLen_new inode fileType (show 8 + name.length ≤ tailOffset by omega)]
  rw [ensureDirblockChecksumTail, hfield]
  simp only [ok_bind]
  rw [if_neg (by omega), hshort]
  have hsplice : splice (layout [new inode tailOffset fileType name] ++
      replicate 12 0 ++ []) tailOffset (tailHeader ++ [0, 0, 0, 0]) = _ ++ _ ++ [] :=
    splice_mid (replicate 12 0) hoff (by simp [tailHeader])
  simpa [tailHeader] using hsplice

lemma refreshDirblockChecksum_new (c : DirContext) (hseed : c.seed = some seed)
    (hname : 0 < name.length) (hle : name.length ≤ 255) (hinode : inode < 2 ^ 32) :
    refreshDirblockChecksum c (layout [new inode blockSize fileType name]) =
      .ok (layout ([new inode tailOffset fileType name] ++
        [tail seed c [new inode tailOffset fileType name]])) := by
  have hfull : size [new inode tailOffset fileType name] = tailOffset := by
    have htail : tailOffset = 4084 := rfl
    simp [recLen_new inode fileType (show 8 + name.length ≤ tailOffset by omega)]
  exact refreshDirblockChecksum_of_ensure c hseed rfl hfull
    (ensureDirblockChecksumTail_new hname hle hinode)

end blank

end tail

end TxKernel.Ext4.Directory
