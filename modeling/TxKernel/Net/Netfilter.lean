import Mathlib.Data.List.Basic

/-!
The packet filter of a network namespace. A hook stops at the first `Filter` rule of its own whose
interfaces are those of the frame; the protocol, prefixes and port of a rule are only looked at by
the address translation.
-/

namespace TxKernel.Net

open List

abbrev Ipv4Address := BitVec 32

abbrev Port := BitVec 16

inductive Hook where
  | prerouting | input | forward | output | postrouting
  deriving DecidableEq

inductive Verdict where
  | accept | drop
  deriving DecidableEq

inductive Table where
  | filter | nat
  deriving DecidableEq

inductive Target where
  | accept | drop | masquerade | dnat
  deriving DecidableEq

inductive Protocol where
  | icmp | tcp | udp
  deriving DecidableEq

structure FrameContext where
  hook : Hook
  ingress : Option String
  egress : Option String

structure Ipv4Cidr where
  addr : Ipv4Address
  prefixLen : ℕ
  deriving DecidableEq

structure Rule where
  table : Table
  hook : Hook
  protocol : Option Protocol := none
  src : Option Ipv4Cidr := none
  dst : Option Ipv4Cidr := none
  dstPort : Option Port := none
  inIface : Option String := none
  outIface : Option String := none
  target : Target
  toAddr : Option Ipv4Address := none
  deriving DecidableEq

structure RuleEntry where
  rule : Rule
  packets : ℕ
  bytes : ℕ
  deriving DecidableEq

/-- An IPv4 frame, through the header accessors: the protocol if it is one of the three, and the
ports, or the identifier of an echo and 0, if `l4_tuple` can read them. -/
structure Frame where
  src : Ipv4Address
  dst : Ipv4Address
  protocol : Option Protocol
  ports : Option (Port × Port)
  len : ℕ
  deriving DecidableEq

def prefixMask (prefixLen : ℕ) : BitVec 32 :=
  if prefixLen = 0 then 0 else BitVec.allOnes 32 <<< (32 - prefixLen)

def ipv4InCidr (addr : Ipv4Address) (cidr : Ipv4Cidr) : Bool :=
  let mask := prefixMask (min cidr.prefixLen 32)
  addr &&& mask == cidr.addr &&& mask

def ruleMatchesContext (rule : Rule) (ctx : FrameContext) : Bool :=
  rule.inIface.all (fun iface => ctx.ingress == some iface) &&
    rule.outIface.all fun iface => ctx.egress == some iface

inductive Errno where
  | einval

def addNetfilterRule (rules : List RuleEntry) (rule : Rule) : Except Errno (List RuleEntry) :=
  if rule.src.any (32 < ·.prefixLen) then .error .einval
  else if rule.dst.any (32 < ·.prefixLen) then .error .einval
  else if rule.target = .dnat ∧ rule.toAddr = none then .error .einval
  else .ok (rules ++ [⟨rule, 0, 0⟩])

def saturatingAdd (count n : ℕ) : ℕ := min (count + n) 0xffffffffffffffff

def RuleEntry.hit (entry : RuleEntry) (len : ℕ) : RuleEntry :=
  { entry with packets := saturatingAdd entry.packets 1, bytes := saturatingAdd entry.bytes len }

def Target.verdict : Target → Verdict
  | .drop => .drop
  | .accept | .masquerade | .dnat => .accept

/-- The first element that passes the test, and the list with that element updated. -/
def updateFirst {α : Type*} (test : α → Bool) (f : α → α) : List α → Option (α × List α)
  | [] => none
  | x :: xs =>
    if test x then some (x, f x :: xs)
    else (updateFirst test f xs).map fun r => (r.1, x :: r.2)

lemma map_fst_updateFirst {α : Type*} {test : α → Bool} {l : List α} (f : α → α) :
    (updateFirst test f l).map Prod.fst = l.find? test := by
  induction l with
  | nil => rfl
  | cons x xs ih => cases h : test x <;> simp [updateFirst, h, ← ih, Function.comp_def]

/-- The test the hook makes of a rule. -/
def Rule.selects (rule : Rule) (ctx : FrameContext) : Bool :=
  rule.table == .filter && rule.hook == ctx.hook && ruleMatchesContext rule ctx

/-- Also counts the frame among those of its hook, in a word that wraps around. -/
def runFrameHook (stats : Hook → BitVec 64) (rules : List RuleEntry) (ctx : FrameContext)
    (frame : Frame) : (Hook → BitVec 64) × List RuleEntry × Verdict :=
  (fun hook => if hook = ctx.hook then stats hook + 1 else stats hook,
    match updateFirst (·.rule.selects ctx) (·.hit frame.len) rules with
    | none => (rules, .accept)
    | some (entry, rules) => (rules, entry.rule.target.verdict))

/-- The header fields a rule gives are those of the frame; an echo has no port. -/
def Rule.headerMatches (rule : Rule) (frame : Frame) : Bool :=
  rule.protocol.all (frame.protocol == some ·) &&
    rule.src.all (ipv4InCidr frame.src) && rule.dst.all (ipv4InCidr frame.dst) &&
    rule.dstPort.all fun port => frame.protocol != some .icmp && frame.ports.any (·.2 == port)

/-- The rule is one of the hook, and all fields it gives match. -/
def Rule.matches (rule : Rule) (ctx : FrameContext) (frame : Frame) : Bool :=
  rule.selects ctx && rule.headerMatches frame

/-- The verdict of the first rule that passes a test. -/
def verdictOf (test : Rule → Bool) (rules : List RuleEntry) : Verdict :=
  ((rules.find? (test ·.rule)).map (·.rule.target.verdict)).getD .accept

/-- The verdict of the first rule of the hook all of whose fields match. -/
def firstVerdict (ctx : FrameContext) (frame : Frame) : List RuleEntry → Verdict :=
  verdictOf (·.matches ctx frame)

lemma verdictOf_append {test : Rule → Bool} {before : List RuleEntry}
    (h : ∀ e ∈ before, test e.rule = false) (after : List RuleEntry) :
    verdictOf test (before ++ after) = verdictOf test after := by
  have hnone : before.find? (test ·.rule) = none := by simpa using h
  simp [verdictOf, find?_append, hnone]

lemma verdictOf_cons (test : Rule → Bool) (entry : RuleEntry) (rest : List RuleEntry) :
    verdictOf test (entry :: rest) =
      if test entry.rule then entry.rule.target.verdict else verdictOf test rest := by
  cases h : test entry.rule <;> simp [verdictOf, h]

lemma Target.verdict_eq_iff (t t' : Target) :
    t.verdict = t'.verdict ↔ (t' = .drop ↔ t = .drop) := by
  cases t <;> cases t' <;> decide

lemma verdict_eq_verdictOf_iff (target : Target) (test : Rule → Bool) (rules : List RuleEntry) :
    target.verdict = verdictOf test rules ↔
      (target = .drop → ∃ r ∈ rules, test r.rule = true) ∧
      ∀ before r after, rules = before ++ r :: after → (∀ e ∈ before, test e.rule = false) →
        test r.rule = true → (r.rule.target = .drop ↔ target = .drop) := by
  cases hfind : rules.find? (test ·.rule) with
  | none =>
    have hnone : ∀ r ∈ rules, test r.rule = false := by simpa using hfind
    have hvacuous : ∀ before r after, rules = before ++ r :: after →
        (∀ e ∈ before, test e.rule = false) → test r.rule = true →
        (r.rule.target = .drop ↔ target = .drop) :=
      fun before r after h _ hr => by simp [hnone r (by simp [h])] at hr
    rw [and_iff_left hvacuous, verdictOf, hfind]
    cases target with
    | drop => simpa [Target.verdict] using hnone
    | accept | masquerade | dnat => simp [Target.verdict]
  | some r =>
    obtain ⟨hr, before, after, hsplit, hbefore⟩ := find?_eq_some_iff_append.mp hfind
    rw [verdictOf, hfind, Option.map_some, Option.getD_some, Target.verdict_eq_iff]
    refine ⟨fun h => ⟨fun _ => ⟨r, by simp [hsplit], hr⟩, ?_⟩, fun h =>
      h.2 before r after hsplit (by simpa using hbefore) hr⟩
    intro before' r' after' hsplit' hbefore' hr'
    have hfind' := (find?_eq_some_iff_append (p := fun e : RuleEntry => test e.rule)).mpr
      ⟨hr', before', after', hsplit', by simpa using hbefore'⟩
    obtain rfl := Option.some.inj (hfind.symm.trans hfind')
    exact h

variable (stats : Hook → BitVec 64) (rules : List RuleEntry) (ctx : FrameContext) (frame : Frame)

lemma runFrameHook_verdict :
    (runFrameHook stats rules ctx frame).2.2 = verdictOf (·.selects ctx) rules := by
  rw [runFrameHook, verdictOf, ← map_fst_updateFirst (·.hit frame.len)]
  split <;> simp [*]

end TxKernel.Net
