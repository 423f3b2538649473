import TxKernel.Ext4.Journal.Replay

/-!
The allocator of the journal ring: where a record goes, and which superblock pages activate and
clean it. One record is granted at a time; one that does not fit behind the cursor starts at the
first log block.
-/

namespace TxKernel.Ext4

open List

structure LbaRange where
  startLba : ℕ
  blockCount : ℕ
  deriving DecidableEq

def LbaRange.block (r : LbaRange) : ℕ := r.startLba / r.blockCount

structure JournalRecordLayout where
  descriptor : LbaRange
  metadata : List LbaRange
  revokes : List LbaRange
  commit : LbaRange
  deriving DecidableEq

structure JournalSuperblockState where
  lba : LbaRange
  activate : Page4K
  clean : Page4K
  deriving DecidableEq

structure MutationJournalLayout where
  device : ℕ
  sectorsPerBlock : ℕ
  journalUuid : Uuid
  sequence : UInt32
  records : JournalRecordLayout
  superblockState : Option JournalSuperblockState
  deriving DecidableEq

inductive JournalRingError
  | invalidGeometry
  | zeroSectorsPerBlock
  | emptyMetadata
  | tooLarge
  | lbaOverflow
  | busy
  | missing
  | reservationMismatch
  | superblock
  deriving DecidableEq

structure JournalRingReservation where
  layout : MutationJournalLayout
  id : ℕ
  end_ : ℕ
  deriving DecidableEq

structure JournalRingState where
  cursor : ℕ
  sequence : UInt32
  nextReservationId : ℕ
  active : Option JournalRingReservation
  deriving DecidableEq

structure JournalRing where
  device : ℕ
  sectorsPerBlock : ℕ
  journalUuid : Uuid
  blocks : List ℕ
  first : ℕ
  superblock : Jbd2Superblock
  superblockPage : Option Page4K
  superblockLba : Option LbaRange
  state : JournalRingState
  deriving DecidableEq

namespace JournalRing

def lbaForParts (blocks : List ℕ) (sectorsPerBlock logical : ℕ) :
    Except JournalRingError LbaRange :=
  match blocks[logical]? with
  | none => .error .invalidGeometry
  | some physical =>
    if physical * sectorsPerBlock < 2 ^ 64 then .ok ⟨physical * sectorsPerBlock, sectorsPerBlock⟩
    else .error .lbaOverflow

def superblockLbaOf (g : JournalGeometry) (sectorsPerBlock : ℕ) :
    Except JournalRingError (Option LbaRange) :=
  match g.superblockPage with
  | none => .ok none
  | some _ => (lbaForParts g.blocks sectorsPerBlock 0).map some

def withSequence (device sectorsPerBlock : ℕ) (g : JournalGeometry) (sequence : UInt32) :
    Except JournalRingError JournalRing := do
  if sectorsPerBlock = 0 then
    throw .zeroSectorsPerBlock
  let maxLen := g.superblock.maxLen.toNat
  let first := g.superblock.first.toNat
  if maxLen ≠ g.blocks.length ∨ maxLen < 2 ∨ first = 0 ∨ maxLen ≤ first then
    throw .invalidGeometry
  let superblockLba ← superblockLbaOf g sectorsPerBlock
  return { device, sectorsPerBlock, journalUuid := g.superblock.uuid, blocks := g.blocks, first
           superblock := g.superblock, superblockPage := g.superblockPage, superblockLba
           state := { cursor := first, sequence := max sequence 1, nextReservationId := 1
                      active := none } }

def lbaFor (ring : JournalRing) (logical : ℕ) : Except JournalRingError LbaRange :=
  lbaForParts ring.blocks ring.sectorsPerBlock logical

def lbasFrom (ring : JournalRing) : ℕ → ℕ → Except JournalRingError (List LbaRange)
  | _, 0 => .ok []
  | start, count + 1 => do
    let lba ← ring.lbaFor start
    let lbas ← ring.lbasFrom (start + 1) count
    return lba :: lbas

def superblockState (ring : JournalRing) (sequence : UInt32) (cursor : ℕ) :
    Except JournalRingError (Option JournalSuperblockState) :=
  match ring.superblockPage, ring.superblockLba with
  | some page, some lba =>
    match ring.superblock.writeState page sequence (UInt32.ofNat cursor),
        ring.superblock.writeState page (nextSequence sequence) 0 with
    | .ok activate, .ok clean => .ok (some { lba, activate, clean })
    | _, _ => .error .superblock
  | _, _ => .ok none

def idAfter (id : ℕ) : ℕ := max ((id + 1) % 2 ^ 64) 1

def startOf (ring : JournalRing) (recordBlocks : ℕ) : ℕ :=
  if ring.blocks.length < ring.state.cursor + recordBlocks then ring.first else ring.state.cursor

def reserveWithRevokePages (ring : JournalRing) (metadataBlocks revokePages : ℕ) :
    Except JournalRingError (JournalRingReservation × JournalRing) := do
  if metadataBlocks = 0 then
    throw .emptyMetadata
  let recordBlocks := metadataBlocks + revokePages + 2
  if ring.blocks.length - ring.first < recordBlocks then
    throw .tooLarge
  if ring.state.active.isSome then
    throw .busy
  let cursor := ring.startOf recordBlocks
  let end_ := cursor + recordBlocks
  let descriptor ← ring.lbaFor cursor
  let metadata ← ring.lbasFrom (cursor + 1) metadataBlocks
  let revokes ← ring.lbasFrom (cursor + 1 + metadataBlocks) revokePages
  let commit ← ring.lbaFor (end_ - 1)
  let superblockState ← ring.superblockState ring.state.sequence cursor
  let reservation : JournalRingReservation :=
    { layout := { device := ring.device, sectorsPerBlock := ring.sectorsPerBlock
                  journalUuid := ring.journalUuid, sequence := ring.state.sequence
                  records := { descriptor, metadata, revokes, commit }, superblockState }
      id := ring.state.nextReservationId
      end_ }
  return (reservation, { ring with state := { ring.state with
    nextReservationId := idAfter ring.state.nextReservationId, active := some reservation } })

/-- Finish an active reservation. A failed checkpoint leaves the cursor and the sequence as they
are. -/
def complete (ring : JournalRing) (reservation : JournalRingReservation) (succeeded : Bool) :
    Except JournalRingError JournalRing :=
  match ring.state.active with
  | none => .error .missing
  | some active =>
    if active ≠ reservation then .error .reservationMismatch
    else if succeeded then
      .ok { ring with state := { ring.state with
        cursor := if active.end_ = ring.blocks.length then ring.first else active.end_
        sequence := nextSequence ring.state.sequence
        active := none } }
    else .ok { ring with state := { ring.state with active := none } }

/-! ### Rings -/

def lba (ring : JournalRing) (logical : ℕ) : LbaRange :=
  ⟨ring.blocks.getD logical 0 * ring.sectorsPerBlock, ring.sectorsPerBlock⟩

/-- What construction establishes and every call keeps. -/
structure Sound (ring : JournalRing) : Prop where
  sectors : 0 < ring.sectorsPerBlock
  maxLen : ring.superblock.maxLen.toNat = ring.blocks.length
  first : ring.superblock.first.toNat = ring.first
  first_pos : 0 < ring.first
  cursor_ge : ring.first ≤ ring.state.cursor
  cursor_lt : ring.state.cursor < ring.blocks.length
  uuid : ring.journalUuid = ring.superblock.uuid
  active : ∀ a, ring.state.active = some a → ring.first < a.end_ ∧ a.end_ ≤ ring.blocks.length
  superblockLba : ∀ l, ring.superblockLba = some l → l = ring.lba 0

/-- The rings of a mount: one is made from the geometry, and calls that succeed change it. -/
inductive Reachable : JournalRing → Prop
  | mounted : ∀ {device sectors g sequence ring},
    withSequence device sectors g sequence = .ok ring → Reachable ring
  | reserved : ∀ {ring m r reservation ring'}, Reachable ring →
    ring.reserveWithRevokePages m r = .ok (reservation, ring') → Reachable ring'
  | completed : ∀ {ring reservation succeeded ring'}, Reachable ring →
    ring.complete reservation succeeded = .ok ring' → Reachable ring'

variable {ring ring' : JournalRing} {m r : ℕ} {reservation : JournalRingReservation}
  {sectors logical : ℕ} {l : LbaRange} {succeeded : Bool}

lemma lba_block (h : ring.Sound) (logical : ℕ) :
    (ring.lba logical).block = ring.blocks.getD logical 0 :=
  Nat.mul_div_cancel _ h.sectors

lemma lbaForParts_ok {blocks : List ℕ} (h : lbaForParts blocks sectors logical = .ok l) :
    l = ⟨blocks.getD logical 0 * sectors, sectors⟩ := by
  rw [lbaForParts] at h
  rcases hb : blocks[logical]? with _ | physical
  · simp [hb] at h
  simp only [hb] at h
  split at h
  · cases h
    simp [getD, hb]
  · cases h

lemma lbaFor_ok (h : ring.lbaFor logical = .ok l) :
    l = ring.lba logical := lbaForParts_ok h

lemma lbasFrom_ok {start count : ℕ} {ls : List LbaRange} (h : ring.lbasFrom start count = .ok ls) :
    ls = (range count).map fun i => ring.lba (start + i) := by
  induction count generalizing start ls with
  | zero => cases h; rfl
  | succ count ih =>
    rw [lbasFrom, bind_eq_ok] at h
    obtain ⟨l, hl, h⟩ := h
    rw [bind_eq_ok] at h
    obtain ⟨ls', hls, h⟩ := h
    cases h
    rw [lbaFor_ok hl, ih hls, range_succ_eq_map]
    simp [Function.comp_def, Nat.add_comm 1, Nat.add_assoc]

lemma startOf_spec (h : ring.Sound) {n : ℕ} (hn : n ≤ ring.blocks.length - ring.first) :
    ring.first ≤ ring.startOf n ∧ ring.startOf n + n ≤ ring.blocks.length := by
  have := h.cursor_ge
  have := h.cursor_lt
  rw [startOf]
  split <;> omega

/-- What a successful reservation is. -/
structure Reserved (ring : JournalRing) (m r : ℕ) (reservation : JournalRingReservation)
    (ring' : JournalRing) : Prop where
  metadata_pos : 0 < m
  fits : m + r + 2 ≤ ring.blocks.length - ring.first
  idle : ring.state.active = none
  records : reservation.layout.records =
    { descriptor := ring.lba (ring.startOf (m + r + 2))
      metadata := (List.range m).map fun i => ring.lba (ring.startOf (m + r + 2) + 1 + i)
      revokes := (List.range r).map fun i => ring.lba (ring.startOf (m + r + 2) + 1 + m + i)
      commit := ring.lba (ring.startOf (m + r + 2) + 1 + m + r) }
  sequence : reservation.layout.sequence = ring.state.sequence
  uuid : reservation.layout.journalUuid = ring.journalUuid
  sectors : reservation.layout.sectorsPerBlock = ring.sectorsPerBlock
  end_ : reservation.end_ = ring.startOf (m + r + 2) + (m + r + 2)
  id : reservation.id = ring.state.nextReservationId
  superblockState : ring.superblockState ring.state.sequence (ring.startOf (m + r + 2))
    = .ok reservation.layout.superblockState
  ring : ring' = { ring with state := { ring.state with
    nextReservationId := idAfter ring.state.nextReservationId, active := some reservation } }

lemma reserve_ok (h : ring.reserveWithRevokePages m r = .ok (reservation, ring')) :
    Reserved ring m r reservation ring' := by
  rw [reserveWithRevokePages, check_eq_ok] at h
  obtain ⟨hm, h⟩ := h
  simp only [check_eq_ok] at h
  obtain ⟨hfit, hidle, h⟩ := h
  simp only [bind_eq_ok] at h
  obtain ⟨d, hd, ms, hms, rs, hrs, c, hc, sb, hsb, h⟩ := h
  obtain ⟨rfl, rfl⟩ := h
  refine ⟨Nat.pos_of_ne_zero hm, Nat.le_of_not_lt hfit, by simpa using hidle, ?_, rfl, rfl, rfl,
    rfl, rfl, hsb, rfl⟩
  have hlast : ring.startOf (m + r + 2) + (m + r + 2) - 1 =
    ring.startOf (m + r + 2) + 1 + m + r := by
    omega
  rw [lbaFor_ok hd, lbasFrom_ok hms, lbasFrom_ok hrs, lbaFor_ok hc, hlast]

lemma sound_withSequence {device : ℕ} {g : JournalGeometry} {sequence : UInt32}
    (h : withSequence device sectors g sequence = .ok ring) : ring.Sound := by
  rw [withSequence, check_eq_ok] at h
  obtain ⟨hsec, h⟩ := h
  simp only [check_eq_ok] at h
  obtain ⟨hgeo, h⟩ := h
  rw [bind_eq_ok] at h
  obtain ⟨lba?, hlba, h⟩ := h
  cases h
  simp only [not_or, not_not] at hgeo
  refine ⟨Nat.pos_of_ne_zero hsec, hgeo.1, rfl, Nat.pos_of_ne_zero hgeo.2.2.1, le_refl _,
    by simp only; omega, rfl, by simp, ?_⟩
  rintro l ⟨⟩
  rw [superblockLbaOf] at hlba
  rcases hp : g.superblockPage with _ | page
  · simp [hp] at hlba
  rcases hl : lbaForParts g.blocks sectors 0 with e | l'
  · simp [hp, hl, Except.map] at hlba
  simp only [hp, hl, Except.map, Except.ok.injEq, Option.some_inj] at hlba
  rw [← hlba, lbaForParts_ok hl]
  rfl

lemma Sound.reserve (h : ring.Sound) (hr : Reserved ring m r reservation ring') : ring'.Sound := by
  obtain ⟨hge, hle⟩ := startOf_spec h hr.fits
  have hend := hr.end_
  rw [hr.ring]
  refine ⟨h.sectors, h.maxLen, h.first, h.first_pos, h.cursor_ge, h.cursor_lt, h.uuid, ?_,
    h.superblockLba⟩
  rintro a ⟨⟩
  constructor <;> simp only <;> omega

lemma complete_ok (h : ring.complete reservation succeeded = .ok ring') :
    ring.state.active = some reservation ∧ ring' = { ring with state := { ring.state with
      cursor := if succeeded then
          if reservation.end_ = ring.blocks.length then ring.first else reservation.end_
        else ring.state.cursor
      sequence := if succeeded then nextSequence ring.state.sequence else ring.state.sequence
      active := none } } := by
  rw [complete] at h
  rcases ha : ring.state.active with _ | a
  · simp [ha] at h
  simp only [ha] at h
  split at h
  · cases h
  rename_i hne
  rw [not_not] at hne
  subst hne
  cases succeeded <;> cases h <;> exact ⟨rfl, rfl⟩

lemma exists_complete (h : ring.state.active = some reservation) (succeeded : Bool) :
    ∃ ring', ring.complete reservation succeeded = .ok ring' := by
  rw [complete, h]
  cases succeeded <;> simp

lemma Sound.complete (h : ring.Sound) (hc : ring.complete reservation succeeded = .ok ring') :
    ring'.Sound := by
  obtain ⟨ha, rfl⟩ := complete_ok hc
  obtain ⟨hlo, hhi⟩ := h.active _ ha
  have hlt := h.cursor_lt
  have hge := h.cursor_ge
  refine ⟨h.sectors, h.maxLen, h.first, h.first_pos, ?_, ?_, h.uuid, by simp, h.superblockLba⟩
  · simp only
    split
    · split <;> omega
    · exact hge
  · simp only
    split
    · split <;> omega
    · exact hlt

lemma Reachable.sound (hring : Reachable ring) : ring.Sound := by
  induction hring with
  | mounted h => exact sound_withSequence h
  | reserved _ h ih => exact ih.reserve (reserve_ok h)
  | completed _ h ih => exact ih.complete h

/-- **Records stay in the log**: every reachable ring grants blocks that follow each other, behind
the superblock. -/
theorem reserved_in_log (hring : Reachable ring)
    (h : ring.reserveWithRevokePages m r = .ok (reservation, ring')) :
    ∃ start, 0 < ring.first ∧ ring.first ≤ start ∧ start + (m + r + 2) ≤ ring.blocks.length ∧
      reservation.layout.records = ⟨ring.lba start, (range m).map fun i => ring.lba (start + 1 + i),
        (range r).map fun i => ring.lba (start + 1 + m + i), ring.lba (start + 1 + m + r)⟩ := by
  have hres := reserve_ok h
  obtain ⟨hfirst, hfits⟩ := startOf_spec hring.sound hres.fits
  exact ⟨_, hring.sound.first_pos, hfirst, hfits, hres.records⟩

theorem reserved_in_log_mounted : ∃ (ring : JournalRing) (reservation : JournalRingReservation),
    ∃ start, 0 < start ∧ start + 3 ≤ ring.blocks.length ∧
      reservation.layout.records.commit = ring.lba (start + 2) := by
  obtain ⟨⟨reservation, ring'⟩, h⟩ := exists_ok (show (withSequence 0 8
    ⟨⟨4, 4096, 4, 1, 1, 0, .zero 16⟩, [100, 101, 102, 103], none⟩ 1 >>=
      (·.reserveWithRevokePages 1 0)).isOk = true by decide +kernel)
  obtain ⟨ring, hring, h⟩ := bind_eq_ok.mp h
  obtain ⟨start, hpos, hfirst, hfits, hrecords⟩ := reserved_in_log (.mounted hring) h
  exact ⟨ring, reservation, start, by omega, hfits, by rw [hrecords]⟩

end JournalRing

end TxKernel.Ext4
