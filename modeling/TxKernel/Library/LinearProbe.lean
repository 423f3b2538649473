import Mathlib.Data.List.Basic
import Mathlib.Data.List.Perm.Basic
import Mathlib.Data.Nat.Basic

/-!
A hash table with linear probing and removal by backward shift. Every bucket from an entry's home up
to its own is taken, so that a search may stop at the first empty one. The loops take one unit of
fuel for every bucket and answer `none` exactly where the source does not end.
-/

namespace TxKernel.LinearProbe

open List

/-- How many steps a search that starts at `home` takes to `position`. -/
def distance (len home position : ℕ) : ℕ :=
  if home ≤ position then position - home else len - (home - position)

lemma distance_lt {n h p : ℕ} (hh : h < n) (hp : p < n) : distance n h p < n := by
  unfold distance
  split_ifs <;> omega

lemma distance_self (n h : ℕ) : distance n h h = 0 := by
  simp [distance]

lemma eq_of_distance_eq_zero {n h p : ℕ} (hh : h < n) (h0 : distance n h p = 0) : p = h := by
  unfold distance at h0
  split_ifs at h0 <;> omega

lemma distance_inj {n h p q : ℕ} (hh : h < n) (hp : p < n) (hq : q < n)
    (heq : distance n h p = distance n h q) : p = q := by
  unfold distance at heq
  split_ifs at heq <;> omega

lemma next_eq {n p : ℕ} (hp : p < n) : (p + 1) % n = if p + 1 = n then 0 else p + 1 := by
  split_ifs with h
  · rw [h, Nat.mod_self]
  · exact Nat.mod_eq_of_lt (by omega)

lemma next_lt {n p : ℕ} (hp : p < n) : (p + 1) % n < n := Nat.mod_lt _ (by omega)

lemma distance_next {n h p : ℕ} (hh : h < n) (hp : p < n) (hlast : distance n h p + 1 < n) :
    distance n h ((p + 1) % n) = distance n h p + 1 := by
  rw [next_eq hp]
  unfold distance at *
  split_ifs at * <;> omega

lemma distance_next_left {n p z : ℕ} (hp : p < n) (hz : z < n) (hne : z ≠ p) :
    distance n ((p + 1) % n) z + 1 = distance n p z := by
  rw [next_eq hp]
  unfold distance
  split_ifs <;> omega

lemma distance_over {n h hole scan p : ℕ} (hh : h < n) (hhole : hole < n) (hscan : scan < n)
    (hp : p < n) (hover : distance n h hole < distance n h p)
    (hbeyond : distance n hole scan < distance n hole p) :
    distance n h scan < distance n h p := by
  unfold distance at *
  split_ifs at * <;> omega

/-- **A walk** from `h` to `p`: what holds at `p` is handed back from bucket to bucket to `h`. -/
lemma walk {n h p : ℕ} (hh : h < n) (hp : p < n) {P : ℕ → ℕ → Prop} (goal : ∀ fuel, P (fuel + 1) p)
    (step : ∀ fuel i, i < n → distance n h i < distance n h p →
      distance n h ((i + 1) % n) = distance n h i + 1 → P fuel ((i + 1) % n) → P (fuel + 1) i) :
    P n h := by
  have hpd := distance_lt hh hp
  suffices hall : ∀ fuel i, i < n → distance n h i ≤ distance n h p →
      n ≤ fuel + distance n h i → P fuel i from
    hall n h hh (by simp [distance_self]) (by omega)
  intro fuel
  induction fuel with
  | zero =>
    intro i _ _ _
    omega
  | succ fuel ih =>
    intro i hi hle hfuel
    by_cases heq : i = p
    · exact heq ▸ goal fuel
    have hlt := lt_of_le_of_ne hle fun hc => heq (distance_inj hh hi hp hc)
    have hnext := distance_next hh hi (by omega)
    exact step fuel i hi hlt hnext (ih _ (next_lt hi) (by omega) (by omega))

variable {E : Type*}

def entries (t : List (Option E)) : List E := t.filterMap id

variable {e : E} {t : List (Option E)}

lemma mem_entries : e ∈ entries t ↔ ∃ p : ℕ, t[p]? = some (some e) := by
  rw [entries, mem_filterMap, ← mem_iff_getElem?]
  simp

section

variable {α : Type*} {l : List α} {i : ℕ} {x : α}

lemma lt_of_getElem? (h : l[i]? = some x) : i < l.length :=
  (List.getElem?_eq_some_iff.mp h).1

lemma getElem?_set_lt (hi : i < l.length) (x : α) (j : ℕ) :
    (l.set i x)[j]? = if j = i then some x else l[j]? := by
  rw [getElem?_set]
  by_cases h : i = j
  · subst h
    simp [hi]
  · rw [if_neg h, if_neg (fun hc => h hc.symm)]

lemma set_of_getElem? (h : l[i]? = some x) : l.set i x = l := by
  apply ext_getElem?
  intro j
  rw [getElem?_set_lt (lt_of_getElem? h)]
  split_ifs with hj
  · rw [hj, h]
  · rfl

end

variable {p : ℕ}

lemma entries_set_none (h : t[p]? = some (some e)) : entries t ~ e :: entries (t.set p none) := by
  have hp := lt_of_getElem? h
  have hget : t[p] = some e := (List.getElem?_eq_some_iff.mp h).2
  have hsplit : t = t.take p ++ some e :: t.drop (p + 1) := by
    rw [← hget, ← List.drop_eq_getElem_cons hp, List.take_append_drop]
  have hset : t.set p none = t.take p ++ none :: t.drop (p + 1) :=
    set_eq_take_append_cons_drop.trans (if_pos hp)
  rw [hset]
  nth_rewrite 1 [hsplit]
  simp only [entries, filterMap_append, filterMap_cons, id_eq]
  exact perm_middle

lemma entries_set_some (h : t[p]? = some none) (e : E) :
    entries (t.set p (some e)) ~ e :: entries t := by
  have hp := lt_of_getElem? h
  have hfull : (t.set p (some e))[p]? = some (some e) := by
    rw [getElem?_set_lt hp, if_pos rfl]
  have hperm := entries_set_none hfull
  rwa [set_set, set_of_getElem? h] at hperm

lemma exists_empty (h : (entries t).length < t.length) : ∃ z : ℕ, t[z]? = some none := by
  by_contra hno
  have hall : ∀ x ∈ t, (id x).isSome := by
    intro x hx
    obtain ⟨i, hi⟩ := mem_iff_getElem?.mp hx
    rcases x with _ | x
    · exact absurd ⟨i, hi⟩ hno
    · rfl
  have := filterMap_length_eq_length.mpr hall
  rw [entries, this] at h
  exact lt_irrefl _ h

variable {K : Type*} (key : E → K) (hash : K → ℕ)

def home (t : List (Option E)) (k : K) : ℕ := hash k % t.length

lemma home_lt (ht : 0 < t.length) (k : K) : home hash t k < t.length :=
  Nat.mod_lt _ ht

/-- The search for a key from one bucket on, to the key or to the first empty bucket. -/
def findFrom [DecidableEq K] (t : List (Option E)) (k : K) : ℕ → ℕ → Option (Option ℕ)
  | 0, _ => none
  | fuel + 1, index =>
    match t[index]? with
    | none => none
    | some none => some none
    | some (some e) =>
      if key e = k then some (some index) else findFrom t k fuel ((index + 1) % t.length)

def find [DecidableEq K] (t : List (Option E)) (k : K) : Option (Option ℕ) :=
  if t.length = 0 then some none else findFrom key t k t.length (home hash t k)

def emptyFrom (t : List (Option E)) : ℕ → ℕ → Option ℕ
  | 0, _ => none
  | fuel + 1, index =>
    match t[index]? with
    | none => none
    | some none => some index
    | some (some _) => emptyFrom t fuel ((index + 1) % t.length)

def insert (t : List (Option E)) (e : E) : Option (List (Option E)) :=
  (emptyFrom t t.length (home hash t (key e))).map fun index => t.set index (some e)

def insertAll : List (Option E) → List E → Option (List (Option E))
  | t, [] => some t
  | t, e :: es => (insert key hash t e).bind fun t' => insertAll t' es

/-- Close a hole: an entry whose way leads over the hole moves into it and leaves a new one. -/
def shift : List (Option E) → ℕ → ℕ → ℕ → Option (List (Option E))
  | _, 0, _, _ => none
  | t, fuel + 1, hole, scan =>
    match t[scan]? with
    | none => none
    | some none => some (t.set hole none)
    | some (some e) =>
      if distance t.length (home hash t (key e)) hole < distance t.length (home hash t (key e)) scan
      then shift (t.set hole (some e)) fuel scan ((scan + 1) % t.length)
      else shift t fuel hole ((scan + 1) % t.length)

def erase [DecidableEq K] (t : List (Option E)) (k : K) : Option (Option E × List (Option E)) :=
  match find key hash t k with
  | none => none
  | some none => some (none, t)
  | some (some hole) =>
    match t[hole]? with
    | none => none
    | some none => some (none, t)
    | some (some e) =>
      (shift key hash t t.length hole ((hole + 1) % t.length)).map fun t' => (some e, t')

/-- No key is held twice, and the way from the home of an entry to the entry has no empty
bucket. -/
structure Table (t : List (Option E)) : Prop where
  unique : ∀ ⦃p q : ℕ⦄ ⦃e f : E⦄, t[p]? = some (some e) → t[q]? = some (some f) → key e = key f →
    p = q
  reach : ∀ ⦃p : ℕ⦄ ⦃e : E⦄, t[p]? = some (some e) → ∀ q < t.length,
    distance t.length (home hash t (key e)) q < distance t.length (home hash t (key e)) p →
      t[q]? ≠ some none

variable {key} in
lemma nodup_keys_of_unique
    (h : ∀ ⦃p q : ℕ⦄ ⦃e f : E⦄, t[p]? = some (some e) → t[q]? = some (some f) → key e = key f →
      p = q) :
    ((entries t).map key).Nodup := by
  induction t with
  | nil => exact nodup_nil
  | cons x t ih =>
    have htail : ((entries t).map key).Nodup := ih fun p q e f hp hq hkey =>
      Nat.succ_injective (h (p := p + 1) (q := q + 1) (by simpa using hp) (by simpa using hq) hkey)
    rcases x with _ | e
    · exact htail
    refine nodup_cons.mpr ⟨fun hmem => ?_, htail⟩
    obtain ⟨f, hf, hkey⟩ := mem_map.mp hmem
    obtain ⟨q, hq⟩ := mem_entries.mp hf
    have := h (p := 0) (q := q + 1) rfl (by simpa using hq) hkey.symm
    omega

variable {key hash} in
lemma Table.nodup_keys (h : Table key hash t) : ((entries t).map key).Nodup :=
  nodup_keys_of_unique h.unique

lemma table_replicate (n : ℕ) : Table key hash (replicate n (none : Option E)) := by
  constructor
  · intro p q e f hp
    simp [getElem?_replicate] at hp
  · intro p e hp
    simp [getElem?_replicate] at hp

lemma entries_replicate (n : ℕ) : entries (replicate n (none : Option E)) = [] := by
  simp [entries]

section search
variable [DecidableEq K] {key hash} {t : List (Option E)}

lemma getElem?_some_of_lt {α : Type*} {l : List α} {i : ℕ} (h : i < l.length) :
    ∃ x, l[i]? = some x :=
  ⟨l[i], getElem?_eq_getElem h⟩

theorem find_of_getElem? (ht : Table key hash t) (hp : t[p]? = some (some e)) :
    find key hash t (key e) = some (some p) := by
  have hpn := lt_of_getElem? hp
  rw [find, if_neg (by omega)]
  refine walk (P := fun fuel i => findFrom key t (key e) fuel i = some (some p))
    (home_lt hash (by omega) _) hpn (fun fuel => by simp [findFrom, hp]) ?_
  intro fuel i hi hlt _ ih
  obtain ⟨x, hx⟩ := getElem?_some_of_lt hi
  rcases x with _ | f
  · exact absurd hx (ht.reach hp i hi hlt)
  have hkey : ¬ key f = key e := fun hc => ne_of_lt hlt (by rw [ht.unique hx hp hc])
  simp only [findFrom, hx, if_neg hkey]
  exact ih

theorem find_of_absent {k : K} (habs : ∀ f ∈ entries t, key f ≠ k)
    (hroom : t = [] ∨ (entries t).length < t.length) : find key hash t k = some none := by
  rcases hroom with rfl | hroom
  · rfl
  obtain ⟨z, hz⟩ := exists_empty hroom
  rw [find, if_neg (by omega)]
  refine walk (P := fun fuel i => findFrom key t k fuel i = some none)
    (home_lt hash (by omega) _) (lt_of_getElem? hz) (fun fuel => by simp [findFrom, hz]) ?_
  intro fuel i hi _ _ ih
  obtain ⟨x, hx⟩ := getElem?_some_of_lt hi
  rcases x with _ | f
  · simp [findFrom, hx]
  simp only [findFrom, hx, if_neg (habs f (mem_entries.mpr ⟨i, hx⟩))]
  exact ih

end search

section insertion
variable {key hash} {t : List (Option E)}

lemma emptyFrom_spec {z h : ℕ} (hz : t[z]? = some none) (hh : h < t.length) :
    ∃ p : ℕ, emptyFrom t t.length h = some p ∧ t[p]? = some none ∧
      ∀ q < t.length, distance t.length h q < distance t.length h p → t[q]? ≠ some none := by
  refine walk (P := fun fuel i => (∀ q < t.length, distance t.length h q < distance t.length h i →
      t[q]? ≠ some none) → ∃ p : ℕ, emptyFrom t fuel i = some p ∧ t[p]? = some none ∧
      ∀ q < t.length, distance t.length h q < distance t.length h p → t[q]? ≠ some none)
    hh (lt_of_getElem? hz) (fun fuel hbefore => ⟨z, by simp [emptyFrom, hz], hz, hbefore⟩) ?_
    fun q _ hlt => by simp [distance_self] at hlt
  intro fuel i hi _ hnext ih hbefore
  obtain ⟨x, hx⟩ := getElem?_some_of_lt hi
  rcases x with _ | f
  · exact ⟨i, by simp [emptyFrom, hx], hx, hbefore⟩
  simp only [emptyFrom, hx]
  refine ih fun q hq hlt => ?_
  rcases Nat.lt_or_ge (distance t.length h q) (distance t.length h i) with h1 | h1
  · exact hbefore q hq h1
  have : q = i := distance_inj hh hq hi (by omega)
  subst this
  rw [hx]
  simp

/-- **Insertion**: with a free bucket and a new key the entry is added and the table stays one. -/
theorem insert_spec (ht : Table key hash t) (habs : ∀ f ∈ entries t, key f ≠ key e)
    (hroom : (entries t).length < t.length) :
    ∃ t', insert key hash t e = some t' ∧ t'.length = t.length ∧ entries t' ~ e :: entries t ∧
      Table key hash t' := by
  obtain ⟨z, hz⟩ := exists_empty hroom
  have hh : home hash t (key e) < t.length := home_lt hash (by omega) _
  obtain ⟨p, hfrom, hp, hbefore⟩ := emptyFrom_spec hz hh
  have hpn := lt_of_getElem? hp
  have hnew : ∀ {q : ℕ} {f : E}, t[q]? = some (some f) → key f ≠ key e := fun hq =>
    habs _ (mem_entries.mpr ⟨_, hq⟩)
  refine ⟨t.set p (some e), by simp [insert, hfrom], length_set, entries_set_some hp e,
    ?_, ?_⟩
  · intro a b f g ha hb hkey
    rw [getElem?_set_lt hpn] at ha hb
    split_ifs at ha hb with h1 h2 h2
    · omega
    · obtain rfl : e = f := by simpa using ha
      exact absurd hkey.symm (hnew hb)
    · obtain rfl : e = g := by simpa using hb
      exact absurd hkey (hnew ha)
    · exact ht.unique ha hb hkey
  intro a f ha q hq hlt
  rw [length_set] at hq hlt
  rw [getElem?_set_lt hpn] at ha ⊢
  have hhome : home hash (t.set p (some e)) (key f) = home hash t (key f) := by
    simp [home]
  rw [hhome] at hlt
  split_ifs with h1
  · simp
  split_ifs at ha with h2
  · obtain rfl : e = f := by simpa using ha
    subst h2
    exact hbefore q hq hlt
  · exact ht.reach ha q hq hlt

theorem insertAll_spec (ht : Table key hash t) (es : List E)
    (habs : ∀ e ∈ es, ∀ f ∈ entries t, key f ≠ key e) (hnodup : (es.map key).Nodup)
    (hroom : (entries t).length + es.length ≤ t.length) :
    ∃ t', insertAll key hash t es = some t' ∧ t'.length = t.length ∧
      entries t' ~ es ++ entries t ∧ Table key hash t' := by
  induction es generalizing t with
  | nil => exact ⟨t, rfl, rfl, .rfl, ht⟩
  | cons e es ih =>
    rw [length_cons] at hroom
    rw [map_cons, nodup_cons] at hnodup
    obtain ⟨t1, hins, hlen, hperm, ht1⟩ := insert_spec ht (habs e mem_cons_self) (by omega)
    have habs1 : ∀ g ∈ es, ∀ f ∈ entries t1, key f ≠ key g := by
      intro g hg f hf
      rcases mem_cons.mp (hperm.mem_iff.mp hf) with rfl | hf
      · exact fun hc => hnodup.1 (hc ▸ mem_map_of_mem hg)
      · exact habs g (mem_cons_of_mem _ hg) f hf
    have hcount := hperm.length_eq
    rw [length_cons] at hcount
    obtain ⟨t2, hall, hlen2, hperm2, ht2⟩ := ih ht1 habs1 hnodup.2 (by omega)
    refine ⟨t2, by simp [insertAll, hins, hall], by omega, ?_, ht2⟩
    exact hperm2.trans ((hperm.append_left es).trans perm_middle)

end insertion

section removal
variable {key hash} {t : List (Option E)}

/-- A table with a hole that is being closed. An entry whose way leads over the hole has not been
scanned yet, and the scan has not reached the empty bucket `z`. -/
structure Closing (key : E → K) (hash : K → ℕ) (t : List (Option E)) (hole scan z : ℕ) : Prop where
  hole_lt : hole < t.length
  scan_lt : scan < t.length
  empty : t[z]? = some none
  taken : t[hole]? ≠ some none
  ahead : 0 < distance t.length hole scan
  before : distance t.length hole scan ≤ distance t.length hole z
  unique : ∀ ⦃p q : ℕ⦄ ⦃e f : E⦄, p ≠ hole → q ≠ hole → t[p]? = some (some e) →
    t[q]? = some (some f) → key e = key f → p = q
  reach : ∀ ⦃p : ℕ⦄ ⦃e : E⦄, p ≠ hole → t[p]? = some (some e) → ∀ q < t.length,
    distance t.length (home hash t (key e)) q < distance t.length (home hash t (key e)) p →
      t[q]? ≠ some none
  later : ∀ ⦃p : ℕ⦄ ⦃e : E⦄, p ≠ hole → t[p]? = some (some e) →
    distance t.length (home hash t (key e)) hole < distance t.length (home hash t (key e)) p →
      distance t.length hole scan ≤ distance t.length hole p

namespace Closing
variable {hole scan z : ℕ}

section

variable (h : Closing key hash t hole scan z)
include h

lemma z_lt : z < t.length := lt_of_getElem? h.empty

lemma pos : 0 < t.length := by
  have := h.hole_lt
  omega

lemma scan_ne : scan ≠ hole := by
  rintro rfl
  have := h.ahead
  rw [distance_self] at this
  exact lt_irrefl _ this

lemma finish (hscan : t[scan]? = some none) : Table key hash (t.set hole none) := by
  constructor
  · intro p q e f hp hq hkey
    rw [getElem?_set_lt h.hole_lt] at hp hq
    split_ifs at hp hq with h1 h2 h2
    · cases hp
    · cases hp
    · cases hq
    · exact h.unique h1 h2 hp hq hkey
  intro p e hp q hq hlt
  have hhome : home hash (t.set hole none) (key e) = home hash t (key e) := by
    simp [home]
  rw [length_set] at hq hlt
  rw [hhome] at hlt
  rw [getElem?_set_lt h.hole_lt] at hp ⊢
  split_ifs at hp with h1
  · cases hp
  split_ifs with h2
  · -- the way would lead over the hole and then over the empty bucket at `scan`
    subst h2
    have hle := h.later h1 hp hlt
    have hne : p ≠ scan := by
      rintro rfl
      rw [hscan] at hp
      cases hp
    have hpn := lt_of_getElem? hp
    have hbeyond : distance t.length q scan < distance t.length q p :=
      lt_of_le_of_ne hle fun hc => hne (distance_inj h.hole_lt hpn h.scan_lt hc.symm)
    exact absurd hscan (h.reach h1 hp scan h.scan_lt
      (distance_over (home_lt hash h.pos _) h.hole_lt h.scan_lt hpn hlt hbeyond))
  · exact h.reach h1 hp q hq hlt

lemma keep (hscan : t[scan]? = some (some e))
    (hstay : ¬ distance t.length (home hash t (key e)) hole
      < distance t.length (home hash t (key e)) scan) :
    Closing key hash t hole ((scan + 1) % t.length) z := by
  have hne : z ≠ scan := by
    rintro rfl
    rw [h.empty] at hscan
    cases hscan
  have hlt : distance t.length hole scan < distance t.length hole z :=
    lt_of_le_of_ne h.before fun hc => hne (distance_inj h.hole_lt h.z_lt h.scan_lt hc.symm)
  have hz := distance_lt h.hole_lt h.z_lt
  have hstep := distance_next h.hole_lt h.scan_lt (by omega)
  refine ⟨h.hole_lt, next_lt h.scan_lt, h.empty, h.taken, by omega, by omega, h.unique, h.reach,
    fun p f hp hpf hover => ?_⟩
  have hle := h.later hp hpf hover
  have hps : p ≠ scan := by
    rintro rfl
    rw [hscan] at hpf
    cases hpf
    exact hstay hover
  have hd : distance t.length hole p ≠ distance t.length hole scan := fun hc =>
    hps (distance_inj h.hole_lt (lt_of_getElem? hpf) h.scan_lt hc)
  omega

lemma move (hscan : t[scan]? = some (some e)) (hover : distance t.length (home hash t (key e)) hole
      < distance t.length (home hash t (key e)) scan) :
    Closing key hash (t.set hole (some e)) scan ((scan + 1) % t.length) z := by
  have hne : z ≠ scan := by
    rintro rfl
    rw [h.empty] at hscan
    cases hscan
  have hzh : z ≠ hole := by
    rintro rfl
    exact h.taken h.empty
  have hlen : (t.set hole (some e)).length = t.length := length_set
  have hhome : ∀ k, home hash (t.set hole (some e)) k = home hash t k := fun k => by simp [home]
  have hzd : distance t.length scan z ≠ 0 := fun hc => hne (eq_of_distance_eq_zero h.scan_lt hc)
  have hzlt := distance_lt h.scan_lt h.z_lt
  have hnext : distance t.length scan ((scan + 1) % t.length) = 1 := by
    rw [distance_next h.scan_lt h.scan_lt (by rw [distance_self]; omega), distance_self]
  -- an entry of the new table other than the one at `scan`
  have hold : ∀ {p : ℕ} {f : E}, p ≠ scan → (t.set hole (some e))[p]? = some (some f) →
      (p = hole ∧ f = e) ∨ (p ≠ hole ∧ t[p]? = some (some f)) := by
    intro p f hp hpf
    rw [getElem?_set_lt h.hole_lt] at hpf
    split_ifs at hpf with h1
    · exact .inl ⟨h1, by simpa using hpf.symm⟩
    · exact .inr ⟨h1, hpf⟩
  have hkeep : ∀ {q : ℕ}, t[q]? ≠ some none → (t.set hole (some e))[q]? ≠ some none := by
    intro q hq
    rw [getElem?_set_lt h.hole_lt]
    split_ifs
    · simp
    · exact hq
  refine ⟨by rw [hlen]; exact h.scan_lt, by rw [hlen]; exact next_lt h.scan_lt, ?_, ?_, ?_, ?_,
    ?_, ?_, ?_⟩
  · rw [getElem?_set_lt h.hole_lt, if_neg hzh, h.empty]
  · exact hkeep (by rw [hscan]; simp)
  · rw [hlen, hnext]
    exact Nat.one_pos
  · rw [hlen, hnext]
    omega
  · intro p q f g hp hq hpf hqg hkey
    rcases hold hp hpf with ⟨rfl, rfl⟩ | ⟨h1, h1'⟩ <;>
      rcases hold hq hqg with ⟨rfl, rfl⟩ | ⟨h2, h2'⟩
    · rfl
    · exact absurd (h.unique h.scan_ne h2 hscan h2' hkey).symm hq
    · exact absurd (h.unique h1 h.scan_ne h1' hscan hkey) hp
    · exact h.unique h1 h2 h1' h2' hkey
  · intro p f hp hpf q hq hlt
    rw [hlen] at hq hlt
    rw [hhome] at hlt
    apply hkeep
    rcases hold hp hpf with ⟨rfl, rfl⟩ | ⟨h1, h1'⟩
    · exact h.reach h.scan_ne hscan q hq (lt_trans hlt hover)
    · exact h.reach h1 h1' q hq hlt
  · intro p f hp hpf _
    rw [hlen, hnext]
    have hd : distance t.length scan p ≠ 0 := fun hc => hp (eq_of_distance_eq_zero h.scan_lt hc)
    omega

theorem shift_eq (fuel : ℕ) (hfuel : distance t.length scan z < fuel) :
    ∃ t', shift key hash t fuel hole scan = some t' ∧ t'.length = t.length ∧
      entries t' ~ entries (t.set hole none) ∧ Table key hash t' := by
  induction fuel generalizing t hole scan with
  | zero => omega
  | succ fuel ih =>
    obtain ⟨x, hx⟩ := getElem?_some_of_lt h.scan_lt
    rcases x with _ | e
    · exact ⟨_, by simp [shift, hx], length_set, .rfl, h.finish hx⟩
    have hne : z ≠ scan := by
      rintro rfl
      rw [h.empty] at hx
      cases hx
    have hcloser := distance_next_left h.scan_lt h.z_lt hne
    by_cases hover : distance t.length (home hash t (key e)) hole
        < distance t.length (home hash t (key e)) scan
    · have hmove := h.move hx hover
      obtain ⟨t', hshift, hlen, hperm, htable⟩ := ih hmove (by rw [length_set]; omega)
      refine ⟨t', by simp only [shift, hx, if_pos hover]; exact hshift, by simp [hlen], ?_, htable⟩
      -- the moved entry is counted once before and once after
      have hfull : (t.set hole (some e))[hole]? = some (some e) := by
        rw [getElem?_set_lt h.hole_lt, if_pos rfl]
      have hfull' : (t.set hole (some e))[scan]? = some (some e) := by
        rw [getElem?_set_lt h.hole_lt, if_neg h.scan_ne, hx]
      have h1 := entries_set_none hfull
      have h2 := entries_set_none hfull'
      rw [set_set] at h1
      exact hperm.trans ((h2.symm.trans h1).cons_inv)
    · obtain ⟨t', hshift, hrest⟩ := ih (h.keep hx hover) (by omega)
      exact ⟨t', by simp only [shift, hx, if_neg hover]; exact hshift, hrest⟩

end

end Closing

variable [DecidableEq K]

/-- **Removal**: the entry of a key is taken out, all others stay, and the table stays one. -/
theorem erase_spec (ht : Table key hash t) (hroom : (entries t).length < t.length)
    (he : e ∈ entries t) :
    ∃ t', erase key hash t (key e) = some (some e, t') ∧ t'.length = t.length ∧
      entries t ~ e :: entries t' ∧ Table key hash t' := by
  obtain ⟨hole, hhole⟩ := mem_entries.mp he
  obtain ⟨z, hz⟩ := exists_empty hroom
  have hh := lt_of_getElem? hhole
  have hzn := lt_of_getElem? hz
  have hne : z ≠ hole := by
    rintro rfl
    rw [hz] at hhole
    cases hhole
  have hzd : distance t.length hole z ≠ 0 := fun hc => hne (eq_of_distance_eq_zero hh hc)
  have hnext : distance t.length hole ((hole + 1) % t.length) = 1 := by
    rw [distance_next hh hh (by rw [distance_self]; omega), distance_self]
  have hclosing : Closing key hash t hole ((hole + 1) % t.length) z := by
    refine ⟨hh, next_lt hh, hz, by rw [hhole]; simp, by omega, by omega, ?_, ?_, ?_⟩
    · exact fun p q f g _ _ hp hq hkey => ht.unique hp hq hkey
    · exact fun p f _ hp => ht.reach hp
    intro p f hp hpf _
    have hd : distance t.length hole p ≠ 0 := fun hc => hp (eq_of_distance_eq_zero hh hc)
    omega
  obtain ⟨t', hshift, hlen, hperm, htable⟩ := hclosing.shift_eq t.length
    (distance_lt (next_lt hh) hzn)
  refine ⟨t', ?_, hlen, (entries_set_none hhole).trans (hperm.symm.cons e), htable⟩
  simp [erase, find_of_getElem? ht hhole, hhole, hshift]

end removal

end TxKernel.LinearProbe
