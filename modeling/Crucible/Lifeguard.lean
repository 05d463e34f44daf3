import Crucible.SwimMembership

/-! # Gossip about oneself

`LifeguardSwim` keeps a membership for the other peers, and a health multiplier for each of
them.  Gossip that calls the local node suspect is answered by an event that says it is alive,
one incarnation later.  A notice that the local node is dead is applied like one about any
other peer.  The incarnation of the answer saturates, so a suspicion at the largest one is not
refuted (`refuted_iff`).
-/
namespace Crucible
open SwimMembership

inductive LifeguardOutcome where
  | ack | timeout | indirectAck | indirectTimeout | noLossWindow
deriving DecidableEq

inductive LifeguardError where
  | capacityExceeded | duplicatePeer | invalidConfig | peerNotFound | zeroUuid
deriving DecidableEq

/-- The settings that `apply_gossip` reads. -/
structure LifeguardConfig where
  swim : SwimConfig
  maxEvents : Nat
  minLhm : Nat := 1
  maxLhm : Nat := 8
  lhmTimeoutPenalty : Nat := 1
deriving DecidableEq

structure LifeguardEvent where
  peer : Uuid
  outcome : LifeguardOutcome
  priorLhm : Nat
  nextLhm : Nat
  observedRttNs : UInt64
  sequence : UInt64
deriving DecidableEq

/-- `Slot`, without the window of round-trip times. -/
structure LifeguardSlot where
  peer : Uuid
  lhm : Nat
deriving DecidableEq

structure LifeguardRefutePlan where
  shouldRefute : Bool := false
  alive : SwimEvent := { peer := ⟨0, 0⟩, state := .alive, incarnation := 0 }
deriving DecidableEq

/-- `LifeguardSwim`.  Its constructor refuses a local node without an identity. -/
structure LifeguardSwim where
  swim : SwimMembership := {}
  localPeer : Uuid
  slots : List LifeguardSlot := []
  events : List LifeguardEvent := []
  sequence : UInt64 := 0
  local_valid : localPeer.isZero = false := by rfl
deriving DecidableEq

def satAdd (a b : UInt64) : UInt64 :=
  let max := 18446744073709551615
  if max - b < a then max else a + b

def mapSwimError : SwimError → LifeguardError
  | .capacityExceeded => .capacityExceeded
  | .duplicatePeer => .duplicatePeer
  | .peerNotFound => .peerNotFound
  | .zeroUuid => .zeroUuid

namespace LifeguardSwim

variable (cfg : LifeguardConfig) (l : LifeguardSwim)

def findSlot (peer : Uuid) : Option Nat := l.slots.findIdx? fun slot => slot.peer == peer

/-- `ensure_slot_`, `none` where it is refused. -/
def ensureSlot (peer : Uuid) : Option LifeguardSwim :=
  if peer.isZero then none
  else if (l.findSlot peer).isSome then some l
  else if l.slots.length < cfg.swim.maxPeers then
    some { l with slots := l.slots ++ [⟨peer, cfg.minLhm⟩] }
  else none

/-- `append_event_`.  A full queue drops its oldest event. -/
def appendEvent (slot : LifeguardSlot) (outcome : LifeguardOutcome) (priorLhm : Nat)
    (observedRttNs : UInt64) : LifeguardSwim :=
  let event : LifeguardEvent :=
    { peer := slot.peer
      outcome := outcome
      priorLhm := priorLhm
      nextLhm := slot.lhm
      observedRttNs := observedRttNs
      sequence := l.sequence + 1 }
  let queue := if l.events.length = cfg.maxEvents then l.events.drop 1 else l.events
  { l with sequence := l.sequence + 1, events := queue ++ [event] }

/-- `penalize_lhm_`, on the slot at `i`. -/
def penalizeLhm (i : Nat) (outcome : LifeguardOutcome) : LifeguardSwim :=
  match l.slots[i]? with
  | none => l
  | some slot =>
    let worse := { slot with lhm := min cfg.maxLhm (slot.lhm + cfg.lhmTimeoutPenalty) }
    appendEvent cfg { l with slots := l.slots.set i worse } worse outcome slot.lhm 0

/-- The answer to a suspicion of the local node. -/
def refutation (incoming : SwimEvent) : LifeguardRefutePlan :=
  { shouldRefute := true
    alive :=
      { peer := l.localPeer
        state := .alive
        consecutiveMisses := 0
        incarnation := satAdd incoming.incarnation 1
        sequence := l.sequence + 1 } }

def applyGossip (incoming : SwimEvent) (nowNs : UInt64) :
    LifeguardSwim × Except LifeguardError LifeguardRefutePlan :=
  if incoming.peer.isZero then (l, .error .zeroUuid)
  else if incoming.peer = l.localPeer ∧ incoming.state = .suspect then
    ({ l with sequence := l.sequence + 1 }, .ok (l.refutation incoming))
  else match l.swim.applyGossip cfg.swim incoming nowNs with
    | .error e => (l, .error (mapSwimError e))
    | .ok swim =>
      let applied := { l with swim := swim }
      match applied.ensureSlot cfg incoming.peer with
      | none => (applied, .error .capacityExceeded)
      | some l' =>
        if incoming.state = .suspect ∨ incoming.state = .dead then
          ((l'.findSlot incoming.peer).elim l' fun i => l'.penalizeLhm cfg i .timeout, .ok {})
        else (l', .ok {})

variable {cfg l} {event : SwimEvent} {nowNs : UInt64}

/-- The gossip is refuted: the local node is not in its own table afterwards, and the answer is
newer wherever the gossip was applied. -/
def Refuted (cfg : LifeguardConfig) (l : LifeguardSwim) (event : SwimEvent) (nowNs : UInt64) :
    Prop :=
  ∃ plan, (l.applyGossip cfg event nowNs).2 = .ok plan ∧ plan.shouldRefute = true ∧
    (l.applyGossip cfg event nowNs).1.swim.record l.localPeer = none ∧
    ∀ (swimCfg : SwimConfig) (m m' : SwimMembership) (at' : UInt64) (slot : PeerSlot),
      m.applyGossip swimCfg event at' = .ok m' → m'.record event.peer = some slot →
      slot.view = event.view → eventNewer plan.alive slot = true

theorem lt_satAdd_one {x : UInt64} : x.toNat < (satAdd x 1).toNat ↔ x.toNat < u64Max := by
  have htop : (18446744073709551615 : UInt64).toNat = u64Max := rfl
  rw [satAdd]
  split
  · rw [htop]
  · rename_i hle
    rw [UInt64.not_lt] at hle
    have hle' : x.toNat ≤ u64Max - 1 := hle
    have hmax : u64Max = 2 ^ 64 - 1 := rfl
    rw [incarnation_succ (by omega)]
    omega

theorem refutation_newer {slot : PeerSlot} (hview : slot.view = event.view)
    (hstate : event.state = .suspect) :
    eventNewer (l.refutation event).alive slot = true ↔ event.incarnation.toNat < u64Max := by
  rw [eventNewer_iff, hview, versionKey_lt_iff, ← lt_satAdd_one]
  refine or_iff_left fun h => ?_
  have hrank : event.state.rank < SwimState.alive.rank := h.2
  rw [hstate] at hrank
  exact absurd hrank (by decide)

theorem applyGossip_fresh (hpeer : event.peer.isZero = false) (at' : UInt64) :
    SwimMembership.applyGossip ⟨1, 0, 1, 1⟩ {} event at' =
      .ok (SwimMembership.appendEvent ⟨1, 0, 1, 1⟩
        { slots := [gossipedSlot {} event at'] } (gossipedSlot {} event at')) := by
  simp [SwimMembership.applyGossip, hpeer, findIndex, pushSlot]

/-- **Gossip against the local node is refuted** exactly when it says `Suspect`, its incarnation
has a successor, and the node is not in its own table yet. -/
theorem refuted_iff (cfg : LifeguardConfig) (l : LifeguardSwim) (event : SwimEvent)
    (nowNs : UInt64) (hpeer : event.peer = l.localPeer)
    (hstate : event.state = .suspect ∨ event.state = .dead) :
    Refuted cfg l event nowNs ↔ event.state = .suspect ∧ event.incarnation.toNat < u64Max ∧
      l.swim.record l.localPeer = none := by
  have hvalid : event.peer.isZero = false := hpeer ▸ l.local_valid
  rcases hstate with hsus | hdead
  · have happly : l.applyGossip cfg event nowNs =
        ({ l with sequence := l.sequence + 1 }, .ok (l.refutation event)) := by
      rw [applyGossip, hvalid, if_neg Bool.false_ne_true, if_pos ⟨hpeer, hsus⟩]
    simp only [Refuted, happly, Except.ok.injEq, exists_eq_left', hsus, true_and]
    constructor
    · rintro ⟨-, hout, hnewer⟩
      have hrecord := List.find?_cons_of_pos (p := fun slot : PeerSlot => slot.uuid == event.peer)
        (a := gossipedSlot {} event 0) (l := []) (beq_self_eq_true event.peer)
      exact ⟨(refutation_newer rfl hsus).mp
        (hnewer _ {} _ 0 _ (applyGossip_fresh hvalid 0) hrecord rfl), hout⟩
    · rintro ⟨hmax, hout⟩
      exact ⟨rfl, hout, fun _ _ _ _ slot _ _ hview => (refutation_newer hview hsus).mpr hmax⟩
  · have hnot : event.state ≠ .suspect := by rw [hdead]; decide
    refine iff_of_false ?_ fun h => hnot h.1
    rintro ⟨plan, hplan, hrefute, -⟩
    rw [applyGossip, hvalid, if_neg Bool.false_ne_true, if_neg fun h => hnot h.2] at hplan
    -- every way through the membership ends in an error or in the empty plan
    split at hplan
    · cases hplan
    · dsimp only at hplan
      split at hplan
      · cases hplan
      · split_ifs at hplan <;> cases hplan <;> cases hrefute

def notice (state : SwimState) : SwimEvent := { peer := onePeer, state := state, incarnation := 3 }

theorem refuted_suspicion :
    Refuted { swim := fourPeers, maxEvents := 4 } { localPeer := onePeer } (notice .suspect) 0 :=
  (refuted_iff _ _ _ _ rfl (.inl rfl)).mpr ⟨rfl, by decide, rfl⟩

/-- A fresh node that hears of its own death is in its table as dead, and answers nothing. -/
theorem death_believed :
    let told := applyGossip { swim := fourPeers, maxEvents := 4 } { localPeer := onePeer }
      (notice .dead) 0
    (told.1.swim.record onePeer).map PeerSlot.view = some (.dead, 3) ∧ told.2.toOption = some {} := by
  decide

/-! ### Acknowledged events -/

def acknowledgeEvents (l : LifeguardSwim) (count : Nat) : LifeguardSwim :=
  { l with events := l.events.drop (min l.events.length count) }

/-- A call of `append_event_`, and the other fields as an operation has left them by then. -/
structure AppendCall where
  fields : LifeguardSwim
  slot : LifeguardSlot
  outcome : LifeguardOutcome
  priorLhm : Nat
  observedRttNs : UInt64

def AppendCall.entry (c : AppendCall) : LifeguardEvent :=
  ⟨c.slot.peer, c.outcome, c.priorLhm, c.slot.lhm, c.observedRttNs, c.fields.sequence + 1⟩

/-- The operations change the queue of events through `append_event_` only. -/
def appendCalls (cfg : LifeguardConfig) (l : LifeguardSwim) (calls : List AppendCall) :
    LifeguardSwim :=
  calls.foldl (fun l c => appendEvent cfg { c.fields with events := l.events }
    c.slot c.outcome c.priorLhm c.observedRttNs) l

theorem events_appendCalls (calls : List AppendCall) : (appendCalls cfg l calls).events =
    EvictingQueue.pushAll cfg.maxEvents l.events (calls.map AppendCall.entry) := by
  induction calls generalizing l with
  | nil => rfl
  | cons c calls ih => exact ih

/-- **An acknowledgement of a batch forgets only what was sent** exactly when the batch was empty,
or no event had to make room since. -/
theorem acknowledged_iff (cfg : LifeguardConfig) (m : SwimMembership) (l : LifeguardSwim)
    {ops : List SwimOp} (calls : List AppendCall)
    (hm : m.piggyback.length ≤ cfg.swim.maxPiggyback) (hl : l.events.length ≤ cfg.maxEvents)
    (hack : ∀ count, .acknowledgePiggybacks count ∉ ops) :
    ((∀ s, s <:+ appended cfg.swim m ops → s <:+ (run cfg.swim m ops).piggyback →
        s <:+ ((run cfg.swim m ops).acknowledgePiggybacks m.piggyback.length).piggyback) ↔
      m.piggyback = [] ∨
        m.piggyback.length + (appended cfg.swim m ops).length ≤ cfg.swim.maxPiggyback) ∧
    ((∀ s, s <:+ calls.map AppendCall.entry → s <:+ (appendCalls cfg l calls).events →
        s <:+ ((appendCalls cfg l calls).acknowledgeEvents l.events.length).events) ↔
      l.events = [] ∨ l.events.length + calls.length ≤ cfg.maxEvents) := by
  constructor
  · rw [← EvictingQueue.dropsOnlyOld_iff hm, acknowledgePiggybacks, EvictingQueue.drop_min,
      piggyback_run hack]
    rfl
  · rw [← calls.length_map AppendCall.entry, ← EvictingQueue.dropsOnlyOld_iff hl,
      acknowledgeEvents, EvictingQueue.drop_min, events_appendCalls]
    rfl

/-- One event was sent, and another one came since. -/
theorem acknowledged_one :
    let m := run fourPeers {} [.addPeer onePeer]
    let m' := run fourPeers m [.onPingTimeout onePeer]
    m.piggyback.length = 1 ∧ ∀ s, s <:+ appended fourPeers m [.onPingTimeout onePeer] →
      s <:+ m'.piggyback → s <:+ (m'.acknowledgePiggybacks 1).piggyback :=
  ⟨rfl, (acknowledged_iff ⟨fourPeers, 4, 1, 8, 1⟩ (run fourPeers {} [.addPeer onePeer])
    { localPeer := onePeer } [] (by decide) (by decide) (by simp)).1.mpr (.inr (by decide))⟩

/-- An event that comes after a batch of four takes the place of the oldest one, and the
acknowledgement of the batch drops it. -/
theorem acknowledged_unsent :
    let m := run fourPeers {} [.addPeer onePeer, .onAck onePeer 1, .onAck onePeer 2,
      .onAck onePeer 3]
    let m' := run fourPeers m [.onAck onePeer 4]
    m.piggyback.length = 4 ∧ appended fourPeers m [.onAck onePeer 4] <:+ m'.piggyback ∧
      (appended fourPeers m [.onAck onePeer 4]).length = 1 ∧
      (m'.acknowledgePiggybacks 4).piggyback = [] := by
  decide

end LifeguardSwim
end Crucible
