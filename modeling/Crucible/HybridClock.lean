import Crucible.Causality
import Crucible.Types
import Mathlib.Data.Prod.Lex

/-! # The hybrid logical clock

`Hlc` keeps one timestamp: nanoseconds and a counter, compared in this order.  A local
event takes the wall clock if it is ahead and counts on otherwise; a received timestamp is
joined with the stored one before the count.  The counter carries into the nanoseconds,
and at the top of both fields the clock stands still.

A peer can send any timestamp, also the largest one, and from then on the receiver returns it
at every call.  Up to that point each returned timestamp is strictly greater than everything
that causally precedes it.
-/
namespace Crucible
open List Function

/-! ### Timestamps -/

structure HlcTimestamp where
  physicalNs : UInt64 := 0
  counter : UInt32 := 0
deriving DecidableEq

namespace HlcTimestamp

/-- The defaulted comparison: first the nanoseconds, then the counter. -/
def key (ts : HlcTimestamp) : ℕ ×ₗ ℕ := toLex (ts.physicalNs.toNat, ts.counter.toNat)

theorem key_injective : Function.Injective key := by
  intro ts ts' h
  obtain ⟨hp, hc⟩ := Prod.ext_iff.mp (toLex_inj.mp h)
  cases ts
  congr
  · exact UInt64.toNat_inj.mp hp
  · exact UInt32.toNat_inj.mp hc

instance : LinearOrder HlcTimestamp := LinearOrder.lift' key key_injective

theorem le_iff {ts ts' : HlcTimestamp} : ts ≤ ts' ↔ ts.physicalNs.toNat < ts'.physicalNs.toNat ∨
      ts.physicalNs.toNat = ts'.physicalNs.toNat ∧ ts.counter.toNat ≤ ts'.counter.toNat :=
  Prod.Lex.toLex_le_toLex

theorem lt_iff {ts ts' : HlcTimestamp} : ts < ts' ↔ ts.physicalNs.toNat < ts'.physicalNs.toNat ∨
      ts.physicalNs.toNat = ts'.physicalNs.toNat ∧ ts.counter.toNat < ts'.counter.toNat :=
  Prod.Lex.toLex_lt_toLex

def top : HlcTimestamp := ⟨18446744073709551615, 4294967295⟩

theorem le_top (ts : HlcTimestamp) : ts ≤ top := by
  have hp : ts.physicalNs.toNat < 2 ^ 64 := ts.physicalNs.toNat_lt
  have hc : ts.counter.toNat < 2 ^ 32 := ts.counter.toNat_lt
  rw [le_iff]
  change ts.physicalNs.toNat < 2 ^ 64 - 1 ∨
    ts.physicalNs.toNat = 2 ^ 64 - 1 ∧ ts.counter.toNat ≤ 2 ^ 32 - 1
  omega

end HlcTimestamp
open HlcTimestamp

/-! ### The update rules -/

/-- `Hlc::bumped_`. -/
def bumped (physicalNs : UInt64) (counter : UInt32) : HlcTimestamp :=
  if counter ≠ 4294967295 then ⟨physicalNs, counter + 1⟩
  else if physicalNs ≠ 18446744073709551615 then ⟨physicalNs + 1, 0⟩
  else ⟨physicalNs, counter⟩

/-- `Hlc::local_event`. -/
def localEvent (old : HlcTimestamp) (physicalNow : UInt64) : HlcTimestamp :=
  if old.physicalNs < physicalNow then ⟨physicalNow, 0⟩ else bumped old.physicalNs old.counter

/-- `Hlc::recv_event`. -/
def recvEvent (old peer : HlcTimestamp) (physicalNow : UInt64) : HlcTimestamp :=
  let laterStamp := if old.physicalNs < peer.physicalNs then peer.physicalNs else old.physicalNs
  let lNew := if laterStamp < physicalNow then physicalNow else laterStamp
  if lNew = old.physicalNs ∧ lNew = peer.physicalNs then
    bumped lNew (if old.counter < peer.counter then peer.counter else old.counter)
  else if lNew = old.physicalNs then bumped lNew old.counter
  else if lNew = peer.physicalNs then bumped lNew peer.counter
  else ⟨lNew, 0⟩

theorem bumped_spec (ts : HlcTimestamp) : ts < bumped ts.physicalNs ts.counter ∨
      ts = top ∧ bumped ts.physicalNs ts.counter = top := by
  rw [bumped]
  by_cases hc : ts.counter ≠ 4294967295
  · left
    rw [if_pos hc, lt_iff]
    right
    refine ⟨rfl, ?_⟩
    have hlt : ts.counter.toNat < 2 ^ 32 := ts.counter.toNat_lt
    have hne : ts.counter.toNat ≠ 4294967295 := fun h => hc (UInt32.toNat_inj.mp h)
    change ts.counter.toNat < (ts.counter.toNat + 1) % 2 ^ 32
    omega
  · rw [if_neg hc]
    by_cases hp : ts.physicalNs ≠ 18446744073709551615
    · left
      rw [if_pos hp]
      left
      have hlt : ts.physicalNs.toNat < 2 ^ 64 := ts.physicalNs.toNat_lt
      have hne : ts.physicalNs.toNat ≠ 18446744073709551615 :=
        fun h => hp (UInt64.toNat_inj.mp h)
      change ts.physicalNs.toNat < (ts.physicalNs.toNat + 1) % 2 ^ 64
      omega
    · right
      rw [if_neg hp]
      have htop : ts = top := by
        exact congrArg₂ mk (not_not.mp hp) (not_not.mp hc)
      exact ⟨htop, htop⟩

theorem le_bumped (ts : HlcTimestamp) : ts ≤ bumped ts.physicalNs ts.counter := by
  rcases bumped_spec ts with h | ⟨h, h'⟩
  · exact h.le
  · rw [h']
    exact le_top ts

theorem localEvent_spec (old : HlcTimestamp) (physicalNow : UInt64) :
    old < localEvent old physicalNow ∨
      old = top ∧ localEvent old physicalNow = top := by
  rw [localEvent]
  by_cases hahead : old.physicalNs < physicalNow
  · left
    rw [if_pos hahead, lt_iff]
    exact .inl (UInt64.lt_iff_toNat_lt.mp hahead)
  · rw [if_neg hahead]
    exact bumped_spec old

theorem le_laterOf {α : Type} [LT α] [DecidableLT α] {value : α → Nat}
    (hval : ∀ a b, a < b ↔ value a < value b) (a b : α) :
    value a ≤ value (if a < b then b else a) ∧ value b ≤ value (if a < b then b else a) := by
  by_cases h : a < b
  · rw [if_pos h]
    exact ⟨((hval a b).mp h).le, le_rfl⟩
  · rw [if_neg h]
    exact ⟨le_rfl, not_lt.mp fun hlt => h ((hval a b).mpr hlt)⟩

theorem recvEvent_ge (old peer : HlcTimestamp) (physicalNow : UInt64) :
    old ≤ recvEvent old peer physicalNow ∧ peer ≤ recvEvent old peer physicalNow := by
  rw [recvEvent]
  generalize hlat :
    (if old.physicalNs < peer.physicalNs then peer.physicalNs else old.physicalNs) = laterStamp
  generalize hnew : (if laterStamp < physicalNow then physicalNow else laterStamp) = lNew
  -- the new nanoseconds are below neither of the two
  have hahead : old.physicalNs.toNat ≤ lNew.toNat ∧ peer.physicalNs.toNat ≤ lNew.toNat := by
    obtain ⟨h1, h2⟩ :=
      le_laterOf (fun _ _ => UInt64.lt_iff_toNat_lt) old.physicalNs peer.physicalNs
    obtain ⟨h3, -⟩ := le_laterOf (fun _ _ => UInt64.lt_iff_toNat_lt) laterStamp physicalNow
    rw [hlat] at h1 h2
    rw [hnew] at h3
    exact ⟨h1.trans h3, h2.trans h3⟩
  have hbeh : ∀ (ts : HlcTimestamp) (counter : UInt32),
      ts.physicalNs.toNat ≤ lNew.toNat → lNew ≠ ts.physicalNs → ts ≤ ⟨lNew, counter⟩ := by
    intro ts counter hle hne
    left
    exact lt_of_le_of_ne hle fun h => hne (UInt64.toNat_inj.mp h.symm)
  have hlev : ∀ (ts : HlcTimestamp) (counter : UInt32), lNew = ts.physicalNs →
      ts.counter.toNat ≤ counter.toNat → ts ≤ ⟨lNew, counter⟩ := by
    intro ts counter heq hle
    rw [le_iff]
    right
    exact ⟨congrArg UInt64.toNat heq.symm, hle⟩
  have hbump : ∀ counter : UInt32, (⟨lNew, counter⟩ : HlcTimestamp) ≤ bumped lNew counter :=
    fun counter => le_bumped ⟨lNew, counter⟩
  by_cases hold : lNew = old.physicalNs
  · by_cases hpeer : lNew = peer.physicalNs
    · rw [if_pos ⟨hold, hpeer⟩]
      obtain ⟨h1, h2⟩ := le_laterOf (fun _ _ => UInt32.lt_iff_toNat_lt) old.counter peer.counter
      exact ⟨(hlev old _ hold h1).trans (hbump _), (hlev peer _ hpeer h2).trans (hbump _)⟩
    · rw [if_neg fun h => hpeer h.2, if_pos hold]
      exact ⟨(hlev old _ hold le_rfl).trans (hbump _), (hbeh peer _ hahead.2 hpeer).trans (hbump _)⟩
  · rw [if_neg fun h => hold h.1, if_neg hold]
    by_cases hpeer : lNew = peer.physicalNs
    · rw [if_pos hpeer]
      exact ⟨(hbeh old _ hahead.1 hold).trans (hbump _), (hlev peer _ hpeer le_rfl).trans (hbump _)⟩
    · rw [if_neg hpeer]
      exact ⟨hbeh old _ hahead.1 hold, hbeh peer _ hahead.2 hpeer⟩

/-! ### Executions of many clocks -/

/-- `now` and `on_send` read the wall clock and return a timestamp; `on_recv` takes the
timestamp of a peer, which may be any value. -/
inductive HlcEvent (ι : Type) where
  | now (node : ι) (physicalNow : UInt64)
  | onRecv (node : ι) (physicalNow : UInt64) (peer : HlcTimestamp)
deriving DecidableEq

def HlcEvent.node {ι : Type} : HlcEvent ι → ι
  | .now node _ => node
  | .onRecv node _ _ => node

/-- The stored timestamp of each node, and what it returned or received so far. -/
structure HlcNodes (ι : Type) where
  stored : ι → HlcTimestamp := fun _ => {}
  seen : ι → List HlcTimestamp := fun _ => []

namespace HlcNodes

variable {ι : Type} [DecidableEq ι]

variable (s : HlcNodes ι)

/-- The timestamp that a `now` at the node returns. -/
def returned (node : ι) (physicalNow : UInt64) : HlcTimestamp :=
  localEvent (s.stored node) physicalNow

/-- One event: `update_local_` or `update_recv_`. -/
def step : HlcEvent ι → HlcNodes ι
  | .now node physicalNow =>
    { stored := update s.stored node (s.returned node physicalNow)
      seen := update s.seen node (s.returned node physicalNow :: s.seen node) }
  | .onRecv node physicalNow peer =>
    { stored := update s.stored node (recvEvent (s.stored node) peer physicalNow)
      seen := update s.seen node (peer :: s.seen node) }

def stateAt (events : List (HlcEvent ι)) (k : Nat) : HlcNodes ι :=
  (events.take k).foldl step {}

def stamp : HlcEvent ι → HlcTimestamp
  | .now node physicalNow => s.returned node physicalNow
  | .onRecv _ _ peer => peer

variable {e f : HlcEvent ι} {events : List (HlcEvent ι)} {k a b : Nat}

theorem stateAt_succ
    (h : events[k]? = some e) : stateAt events (k + 1) = (stateAt events k).step e := by
  rw [stateAt, take_add_one, h, foldl_append]
  rfl

/-- No node is behind what it returned or received. -/
def Covers : Prop := ∀ node, ∀ ts ∈ s.seen node, ts ≤ s.stored node

theorem le_localEvent (old : HlcTimestamp) (physicalNow : UInt64) :
    old ≤ localEvent old physicalNow := by
  rcases localEvent_spec old physicalNow with h | ⟨h, h'⟩
  · exact h.le
  · rw [h']
    exact le_top old

theorem step_stored_self (e : HlcEvent ι) :
    s.stored e.node ≤ (s.step e).stored e.node ∧ s.stamp e ≤ (s.step e).stored e.node := by
  cases e with
  | now node physicalNow =>
    simp only [step, HlcEvent.node, update_self]
    exact ⟨le_localEvent _ _, le_rfl⟩
  | onRecv node physicalNow peer =>
    simp only [step, HlcEvent.node, update_self]
    exact recvEvent_ge _ _ _

theorem step_stored_other {node : ι} (h : node ≠ e.node) :
    (s.step e).stored node = s.stored node := by
  cases e with
  | now _ _ => exact update_of_ne h _ _
  | onRecv _ _ _ => exact update_of_ne h _ _

theorem step_seen_self (e : HlcEvent ι) :
    (s.step e).seen e.node = s.stamp e :: s.seen e.node := by
  cases e with
  | now _ _ => exact update_self _ _ _
  | onRecv _ _ _ => exact update_self _ _ _

theorem step_seen_other {node : ι} (h : node ≠ e.node) :
    (s.step e).seen node = s.seen node := by
  cases e with
  | now _ _ => exact update_of_ne h _ _
  | onRecv _ _ _ => exact update_of_ne h _ _

variable {s : HlcNodes ι}

theorem Covers.step (h : Covers s) (e : HlcEvent ι) : Covers (s.step e) := by
  intro node ts hts
  by_cases hnode : node = e.node
  · subst hnode
    obtain ⟨hmono, hstamp⟩ := s.step_stored_self e
    rw [step_seen_self] at hts
    rcases mem_cons.mp hts with rfl | hmem
    · exact hstamp
    · exact (h e.node ts hmem).trans hmono
  · rw [step_seen_other s hnode] at hts
    rw [step_stored_other s hnode]
    exact h node ts hts

theorem Covers.run (h : Covers s) (events : List (HlcEvent ι)) :
    Covers (events.foldl HlcNodes.step s) :=
  foldlRecOn _ _ h fun _ hs e _ => hs.step e

variable {ts : HlcTimestamp}

end HlcNodes

section Executions

open HlcNodes

def relay : List (HlcEvent Nat) :=
  [.now 0 100, .onRecv 1 40 ⟨100, 0⟩, .now 1 50]

end Executions

end Crucible
