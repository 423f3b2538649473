import TxKernel.Library.Runs

/-!
`setuid`, `setgid` and their `re` and `res` forms. A change of the user ids moves the capabilities
along: they go when the last id of root does.
-/

namespace TxKernel.Cred

open List Runs

/-- The real, the effective and the saved id: `uid`, `euid` and `suid`, or the same of the group. -/
structure Ids where
  real : UInt32
  effective : UInt32
  saved : UInt32

namespace Ids

def toList (ids : Ids) : List UInt32 := [ids.real, ids.effective, ids.saved]

def allowed (prev : Ids) (candidate : UInt32) : Bool :=
  candidate == prev.real || candidate == prev.effective || candidate == prev.saved

abbrev HasRoot (ids : Ids) : Prop := 0 ∈ ids.toList

variable (prev : Ids) (privileged : Bool)

def set (new : UInt32) : Option Ids :=
  if privileged then some ⟨new, new, new⟩
  else if prev.allowed new then some { prev with effective := new }
  else none

def setRes (real effective saved : Option UInt32) : Option Ids :=
  if privileged || real.all prev.allowed && effective.all prev.allowed &&
    saved.all prev.allowed then
    some ⟨real.getD prev.real, effective.getD prev.effective, saved.getD prev.saved⟩
  else none

/-- The rule of `setreuid` and `setregid`: the saved id follows the effective one if the real id is
given or the effective one changes from the real id. -/
def setRe (real effective : Option UInt32) : Option Ids :=
  if privileged || real.all prev.allowed && effective.all prev.allowed then
    let effective := effective.getD prev.effective
    some ⟨real.getD prev.real, effective,
      if real.isSome || effective != prev.real then effective else prev.saved⟩
  else none

end Ids

abbrev Capability := Fin 64

def Capability.setgid : Capability := 6

def Capability.setuid : Capability := 7

abbrev CapabilitySet := BitVec 64

def CapabilitySet.contains (s : CapabilitySet) (cap : Capability) : Bool :=
  s &&& 1#64 <<< cap.val != 0#64

structure Credential where
  uids : Ids
  gids : Ids
  effectiveCaps : CapabilitySet
  permittedCaps : CapabilitySet

namespace Credential

variable (prev : Credential)

def isPrivilegedFor (cap : Capability) : Bool :=
  prev.uids.effective == 0 || prev.effectiveCaps.contains cap

def applyUidCapabilityTransition (new : Credential) : Credential :=
  let moved :=
    if prev.uids.effective = 0 ∧ new.uids.effective ≠ 0 then { new with effectiveCaps := 0 }
    else if prev.uids.effective ≠ 0 ∧ new.uids.effective = 0 then
      { new with effectiveCaps := new.permittedCaps }
    else new
  if prev.uids.HasRoot ∧ ¬ new.uids.HasRoot then
    { moved with effectiveCaps := 0, permittedCaps := 0 }
  else moved

def withUids (ids : Ids) : Credential :=
  prev.applyUidCapabilityTransition { prev with uids := ids }

def withGids (ids : Ids) : Credential := { prev with gids := ids }

end Credential

inductive CredChange
  | replaced (prev new : Credential)
  | zombie
  | again
  | permissionDenied

/-- A process; one that is a zombie has no credential left to change. -/
structure ProcessIdentity where
  cred : Credential
  zombie : Bool
  execReservation : Bool

/-- Derive a new credential, sign it and publish it; signing can fail. -/
def withCredMutation (target : ProcessIdentity) (signed : Bool)
    (derived : Credential → Option Credential) : ProcessIdentity × CredChange :=
  if target.zombie then (target, .zombie)
  else if target.execReservation then (target, .again)
  else match derived target.cred with
    | none => (target, .permissionDenied)
    | some new =>
      if signed then ({ target with cred := new }, .replaced target.cred new)
      else (target, .permissionDenied)

inductive Call
  | setuid (uid : UInt32)
  | setgid (gid : UInt32)
  | setresuid (ruid euid suid : Option UInt32)
  | setresgid (rgid egid sgid : Option UInt32)
  | setreuid (ruid euid : Option UInt32)
  | setregid (rgid egid : Option UInt32)

/-- The credential a call asks for, `none` if it is denied. -/
def Call.derived (prev : Credential) : Call → Option Credential
  | .setuid uid => (prev.uids.set (prev.isPrivilegedFor .setuid) uid).map prev.withUids
  | .setgid gid => (prev.gids.set (prev.isPrivilegedFor .setgid) gid).map prev.withGids
  | .setresuid ruid euid suid =>
    (prev.uids.setRes (prev.isPrivilegedFor .setuid) ruid euid suid).map prev.withUids
  | .setresgid rgid egid sgid =>
    (prev.gids.setRes (prev.isPrivilegedFor .setgid) rgid egid sgid).map prev.withGids
  | .setreuid ruid euid =>
    (prev.uids.setRe (prev.isPrivilegedFor .setuid) ruid euid).map prev.withUids
  | .setregid rgid egid =>
    (prev.gids.setRe (prev.isPrivilegedFor .setgid) rgid egid).map prev.withGids

def step (target : ProcessIdentity) (i : Call × Bool) : ProcessIdentity × CredChange :=
  withCredMutation target i.2 fun prev => i.1.derived prev

def after (p : ProcessIdentity) (calls : List (Call × Bool)) : Credential :=
  (Runs.runSpec step p calls).1.cred

/-! ### What one call can do -/

namespace Ids

variable {prev ids : Ids} {id : UInt32} {effective : Option UInt32}

def Within (ids prev : Ids) : Prop := ∀ id ∈ ids.toList, id ∈ prev.toList

lemma mem_of_allowed (h : prev.allowed id = true) : id ∈ prev.toList := by
  simpa [allowed, toList, or_assoc] using h

lemma getD_mem {given : Option UInt32} (hid : id ∈ prev.toList)
    (h : given.all prev.allowed = true) : given.getD id ∈ prev.toList := by
  cases given with
  | none => exact hid
  | some r => exact mem_of_allowed h

lemma mem_self (prev : Ids) :
    prev.real ∈ prev.toList ∧ prev.effective ∈ prev.toList ∧ prev.saved ∈ prev.toList := by
  simp [toList]

lemma within_mk {r e s : UInt32} (hr : r ∈ prev.toList) (he : e ∈ prev.toList)
    (hs : s ∈ prev.toList) : (Ids.mk r e s).Within prev := by
  rw [Within, toList]
  simpa using ⟨hr, he, hs⟩

lemma set_within {new : UInt32} (h : prev.set false new = some ids) : ids.Within prev := by
  obtain ⟨hreal, -, hsaved⟩ := prev.mem_self
  rw [set, if_neg Bool.false_ne_true] at h
  split_ifs at h with hnew
  cases h
  exact within_mk hreal (mem_of_allowed hnew) hsaved

lemma setRes_within {real saved : Option UInt32}
    (h : prev.setRes false real effective saved = some ids) : ids.Within prev := by
  obtain ⟨hreal, heffective, hsaved⟩ := prev.mem_self
  rw [setRes, Bool.false_or] at h
  split_ifs at h with hgiven
  cases h
  simp only [Bool.and_eq_true] at hgiven
  exact within_mk (getD_mem hreal hgiven.1.1) (getD_mem heffective hgiven.1.2)
    (getD_mem hsaved hgiven.2)

lemma setRe_within {real : Option UInt32} (h : prev.setRe false real effective = some ids) :
    ids.Within prev := by
  obtain ⟨hreal, heffective, hsaved⟩ := prev.mem_self
  rw [setRe, Bool.false_or] at h
  split_ifs at h with hgiven
  cases h
  simp only [Bool.and_eq_true] at hgiven
  have heff := getD_mem heffective hgiven.2
  refine within_mk (getD_mem hreal hgiven.1) heff ?_
  split_ifs
  · exact heff
  · exact hsaved

end Ids

variable {c d e : Credential} {cap : Capability}

/-- What a call can make of a credential: only a privileged one brings in ids from outside. -/
inductive Effect (c : Credential) : Credential → Prop
  | none : Effect c c
  | uids {ids : Ids} (h : c.isPrivilegedFor .setuid = false → ids.Within c.uids) :
      Effect c (c.withUids ids)
  | gids {ids : Ids} (h : c.isPrivilegedFor .setgid = false → ids.Within c.gids) :
      Effect c (c.withGids ids)

lemma Effect.derived {call : Call} (h : call.derived c = some d) : Effect c d := by
  cases call <;> obtain ⟨ids, hids, rfl⟩ := Option.map_eq_some_iff.mp h
  · exact .uids fun hp => Ids.set_within (hp ▸ hids)
  · exact .gids fun hp => Ids.set_within (hp ▸ hids)
  · exact .uids fun hp => Ids.setRes_within (hp ▸ hids)
  · exact .gids fun hp => Ids.setRes_within (hp ▸ hids)
  · exact .uids fun hp => Ids.setRe_within (hp ▸ hids)
  · exact .gids fun hp => Ids.setRe_within (hp ▸ hids)

lemma effect_step (p : ProcessIdentity) (i : Call × Bool) : Effect p.cred (step p i).1.cred := by
  unfold step withCredMutation
  split
  · exact .none
  split
  · exact .none
  split
  next => exact .none
  next new h =>
    split
    · exact .derived h
    · exact .none

/-! ### Capabilities -/

lemma Effect.caps (h : Effect c d) :
    (d.permittedCaps = c.permittedCaps ∨ d.permittedCaps = 0) ∧
      (d.effectiveCaps = c.effectiveCaps ∨ d.effectiveCaps = c.permittedCaps
        ∨ d.effectiveCaps = 0) := by
  cases h with
  | none | gids => exact ⟨.inl rfl, .inl rfl⟩
  | uids =>
    unfold Credential.withUids Credential.applyUidCapabilityTransition
    split_ifs <;> simp

lemma contains_zero (cap : Capability) : CapabilitySet.contains 0 cap = false := by
  simp [CapabilitySet.contains]

lemma Effect.permitted (h : Effect c d) (hd : d.permittedCaps.contains cap = true) :
    c.permittedCaps.contains cap = true := by
  rcases h.caps.1 with hcaps | hcaps <;> rw [hcaps] at hd
  · exact hd
  · cases hd.symm.trans (contains_zero cap)

lemma Effect.effective (h : Effect c d) (hd : d.effectiveCaps.contains cap = true) :
    c.permittedCaps.contains cap = true ∨ c.effectiveCaps.contains cap = true := by
  rcases h.caps.2 with hcaps | hcaps | hcaps <;> rw [hcaps] at hd
  · exact .inr hd
  · exact .inl hd
  · cases hd.symm.trans (contains_zero cap)

/-! ### Ids -/

/-- Neither set holds the capability. -/
def Lacks (c : Credential) (cap : Capability) : Prop :=
  c.permittedCaps.contains cap = false ∧ c.effectiveCaps.contains cap = false

lemma Effect.lacks (h : Effect c d) (hc : Lacks c cap) : Lacks d cap := by
  simp only [Lacks, Bool.eq_false_iff] at hc ⊢
  exact ⟨fun hd => hc.1 (h.permitted hd), fun hd => (h.effective hd).elim hc.1 hc.2⟩

/-- No id of root, and no capability to take other ids. -/
structure Confined (c : Credential) : Prop where
  noRoot : ¬ c.uids.HasRoot
  setuid : Lacks c .setuid
  setgid : Lacks c .setgid

lemma Confined.unprivileged (h : Confined c) (hcap : Lacks c cap) :
    c.isPrivilegedFor cap = false := by
  have heffective : c.uids.effective ≠ 0 := by
    intro h0
    have hmem := c.uids.mem_self.2.1
    rw [h0] at hmem
    exact h.noRoot hmem
  simp [Credential.isPrivilegedFor, heffective, hcap.2]

@[simp] lemma uids_withUids (ids : Ids) : (c.withUids ids).uids = ids := by
  unfold Credential.withUids Credential.applyUidCapabilityTransition
  split_ifs <;> rfl

@[simp] lemma gids_withUids (ids : Ids) : (c.withUids ids).gids = c.gids := by
  unfold Credential.withUids Credential.applyUidCapabilityTransition
  split_ifs <;> rfl

lemma Confined.within (h : Confined c) (he : Effect c d) :
    d.uids.Within c.uids ∧ d.gids.Within c.gids := by
  cases he with
  | none => exact ⟨fun _ h => h, fun _ h => h⟩
  | uids hids =>
    rw [uids_withUids, gids_withUids]
    exact ⟨hids (h.unprivileged h.setuid), fun _ h => h⟩
  | gids hids => exact ⟨fun _ h => h, hids (h.unprivileged h.setgid)⟩

lemma Confined.effect (h : Confined c) (he : Effect c d) : Confined d :=
  ⟨fun hroot => h.noRoot ((h.within he).1 0 hroot), he.lacks h.setuid, he.lacks h.setgid⟩

/-- Root has gone, and every capability with it. -/
structure Dropped (c : Credential) : Prop where
  noRoot : ¬ c.uids.HasRoot
  effective : c.effectiveCaps = 0
  permitted : c.permittedCaps = 0

lemma Dropped.confined (h : Dropped c) : Confined c := by
  have hlacks : ∀ cap, Lacks c cap := fun cap => by
    rw [Lacks, h.effective, h.permitted]
    exact ⟨contains_zero cap, contains_zero cap⟩
  exact ⟨h.noRoot, hlacks _, hlacks _⟩

lemma Dropped.effect (h : Dropped c) (he : Effect c d) : Dropped d := by
  obtain ⟨hp, hf⟩ := he.caps
  rw [h.permitted] at hp hf
  rw [h.effective] at hf
  exact ⟨(h.confined.effect he).noRoot, by simpa using hf, by simpa using hp⟩

lemma Effect.dropped (h : Effect c d) (hc : c.uids.HasRoot) (hd : ¬ d.uids.HasRoot) :
    Dropped d := by
  cases h with
  | none | gids => exact absurd hc hd
  | uids =>
    have hroot := hd
    rw [uids_withUids] at hroot
    refine ⟨hd, ?_, ?_⟩ <;>
      simp [Credential.withUids, Credential.applyUidCapabilityTransition,
        if_pos (And.intro hc hroot)]

/-! ### Runs -/

variable {p : ProcessIdentity} (calls : List (Call × Bool))

lemma Confined.after (h : Confined p.cred) : Confined (after p calls) ∧
    (after p calls).uids.Within p.cred.uids ∧ (after p calls).gids.Within p.cred.gids := by
  refine invariant_total (fun q : ProcessIdentity =>
    Confined q.cred ∧ q.cred.uids.Within p.cred.uids ∧
    q.cred.gids.Within p.cred.gids) (fun q i hq => ?_) calls ⟨h, fun _ h => h, fun _ h => h⟩
  obtain ⟨hconfined, huids, hgids⟩ := hq
  have hstep := hconfined.within (effect_step q i)
  exact ⟨hconfined.effect (effect_step q i), fun id hid => huids id (hstep.1 id hid),
    fun id hid => hgids id (hstep.2 id hid)⟩

lemma hasRoot_or_dropped (h : p.cred.uids.HasRoot ∨ Dropped p.cred) :
    (after p calls).uids.HasRoot ∨ Dropped (after p calls) := by
  refine invariant_total (fun q : ProcessIdentity => q.cred.uids.HasRoot ∨ Dropped q.cred)
    (fun q i hq => ?_) calls h
  rcases hq with hq | hq
  · by_cases hd : (step q i).1.cred.uids.HasRoot
    · exact .inl hd
    · exact .inr ((effect_step q i).dropped hq hd)
  · exact .inr (hq.effect (effect_step q i))

/-- **Privileges do not grow**: along every run no permitted capability is gained and no effective
one but from the permitted; a confined process keeps to the ids it has; and a process that has left
root has no capability and never comes back. -/
theorem privileges_do_not_grow (p : ProcessIdentity) (calls : List (Call × Bool)) :
    (∀ cap, (after p calls).permittedCaps.contains cap = true →
      p.cred.permittedCaps.contains cap = true) ∧
    (∀ call cap, (after p (calls ++ [call])).effectiveCaps.contains cap = true →
      (after p calls).permittedCaps.contains cap = true ∨
        (after p calls).effectiveCaps.contains cap = true) ∧
    (Confined p.cred → (after p calls).uids.Within p.cred.uids ∧
      (after p calls).gids.Within p.cred.gids) ∧
    (p.cred.uids.HasRoot → ¬ (after p calls).uids.HasRoot →
      ∀ more, Dropped (after p (calls ++ more))) := by
  refine ⟨fun cap => ?_, fun call cap => ?_, fun h => (h.after calls).2, fun hroot hleft more => ?_⟩
  · exact invariant_total (fun q => q.cred.permittedCaps.contains cap = true →
      p.cred.permittedCaps.contains cap = true) (fun q i h hq => h ((effect_step q i).permitted hq))
      calls id
  · rw [after, runSpec_append]
    exact (effect_step _ call).effective
  have hdropped := (hasRoot_or_dropped calls (.inl hroot)).resolve_left hleft
  rw [after, runSpec_append]
  exact invariant_total (fun q => Dropped q.cred)
    (fun q i hq => hq.effect (effect_step q i)) more hdropped

end TxKernel.Cred
