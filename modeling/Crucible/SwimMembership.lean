import Crucible.EvictingQueue
import Crucible.NewestWins
import Crucible.Types
import Mathlib.Data.Prod.Lex

/-! # The failure detector

`SwimMembership` records for each peer a state and an incarnation.  Gossip about a known
peer is applied only if it is newer: a larger incarnation, or the same incarnation and a
state of a higher rank.  Local observations write a state of their own and add one to the
incarnation.

The addition is modulo 2⁶⁴ and gossip can carry any incarnation.  One local observation
of a peer at the largest incarnation takes the record back to zero, and from then on
every old notice is news again.  Each byte that names no state has the rank of a death.
-/
namespace Crucible
open List

/-! ### The data of a membership -/

/-- `cog::Uuid`. -/
structure Uuid where
  hi : Nat
  lo : Nat
deriving DecidableEq

def Uuid.isZero (id : Uuid) : Bool := id.hi == 0 && id.lo == 0

/-- `SwimState`, an enumeration over one byte.  A received event can hold any byte. -/
structure SwimState where
  byte : UInt8
deriving DecidableEq

namespace SwimState

def alive : SwimState := ⟨0⟩

def suspect : SwimState := ⟨1⟩

def dead : SwimState := ⟨2⟩

/-- `state_rank_`. -/
def rank (state : SwimState) : Nat :=
  if state = alive then 0 else if state = suspect then 1 else if state = dead then 2 else 2

end SwimState

inductive SwimError where
  | capacityExceeded | duplicatePeer | peerNotFound | zeroUuid
deriving DecidableEq

/-- The template parameters and the fields of `SwimConfig` that the modelled functions
read. -/
structure SwimConfig where
  maxPeers : Nat
  maxPiggyback : Nat
  ackTimeoutNs : UInt64 := 500000000
  suspicionMisses : Nat := 2
deriving DecidableEq

structure PeerHealth where
  state : SwimState
  lastHeartbeatNs : UInt64
  consecutiveMisses : UInt32
  incarnation : UInt64
deriving DecidableEq

/-- `PeerSlot`.  Of the identity only the uuid is read. -/
structure PeerSlot where
  uuid : Uuid
  health : PeerHealth
  lastSeenSequence : UInt64 := 0
deriving DecidableEq

structure SwimEvent where
  peer : Uuid
  state : SwimState
  consecutiveMisses : UInt32 := 0
  incarnation : UInt64
  sequence : UInt64 := 0
deriving DecidableEq

/-- `SwimMembership`.  The live slots are a list, and a peer never leaves its slot. -/
structure SwimMembership where
  slots : List PeerSlot := []
  probeCursor : Nat := 0
  sequence : UInt64 := 0
  piggyback : List SwimEvent := []
deriving DecidableEq

namespace SwimMembership

variable (cfg : SwimConfig)

variable (m : SwimMembership)

def findIndex (id : Uuid) : Option Nat :=
  m.slots.findIdx? fun slot => slot.uuid == id

/-- `append_event_`.  A full queue drops its oldest event. -/
def appendEvent (slot : PeerSlot) : SwimMembership :=
  let sequence := m.sequence + 1
  let event : SwimEvent :=
    { peer := slot.uuid
      state := slot.health.state
      consecutiveMisses := slot.health.consecutiveMisses
      incarnation := slot.health.incarnation
      sequence := sequence }
  let queue := if m.piggyback.length = cfg.maxPiggyback then m.piggyback.drop 1 else m.piggyback
  { m with sequence := sequence, piggyback := queue ++ [event] }

/-- The slot at `i` is written and its event appended. -/
def setSlot (i : Nat) (slot : PeerSlot) : SwimMembership :=
  appendEvent cfg { m with slots := m.slots.set i slot } slot

/-- `reserve_next` and the write of the new slot. -/
def pushSlot (slot : PeerSlot) : Except SwimError SwimMembership :=
  if m.slots.length < cfg.maxPeers then
    .ok (appendEvent cfg { m with slots := m.slots ++ [slot] } slot)
  else .error .capacityExceeded

def eventNewer (incoming : SwimEvent) (slot : PeerSlot) : Bool :=
  if incoming.incarnation ≠ slot.health.incarnation then
    decide (slot.health.incarnation < incoming.incarnation)
  else decide (slot.health.state.rank < incoming.state.rank)

/-- `mark_alive_`, on the slot. -/
def markAlive (slot : PeerSlot) (nowNs : UInt64) : PeerSlot :=
  { slot with
    health :=
      { state := .alive
        lastHeartbeatNs := nowNs
        consecutiveMisses := 0
        incarnation := slot.health.incarnation + 1 }
    lastSeenSequence := m.sequence }

/-- `mark_dead_`, on the slot of a peer that is not dead. -/
def markDead (slot : PeerSlot) : PeerSlot :=
  { slot with
    health := { slot.health with state := .dead, incarnation := slot.health.incarnation + 1 }
    lastSeenSequence := m.sequence }

/-- `miss_`, on the slot of a peer that is not dead.  The count of misses saturates. -/
def miss (slot : PeerSlot) : PeerSlot :=
  let misses :=
    if slot.health.consecutiveMisses.toNat = u32Max then slot.health.consecutiveMisses
    else slot.health.consecutiveMisses + 1
  { slot with
    health :=
      { slot.health with
        state := if cfg.suspicionMisses ≤ misses.toNat then .dead else .suspect
        consecutiveMisses := misses
        incarnation := slot.health.incarnation + 1 }
    lastSeenSequence := m.sequence }

def addPeer (id : Uuid) : Except SwimError SwimMembership :=
  if id.isZero then .error .zeroUuid
  else match m.findIndex id with
    | some _ => .error .duplicatePeer
    | none =>
      pushSlot cfg m
        { uuid := id
          health :=
            { state := .alive
              lastHeartbeatNs := 0
              consecutiveMisses := 0
              incarnation := 1 } }

/-- The slot of a known peer, as `on_ack`, `on_ping_timeout` and `remove_peer` reach it. -/
def onSlot (id : Uuid) (body : Nat → PeerSlot → SwimMembership) :
    Except SwimError SwimMembership :=
  match m.findIndex id with
  | none => .error .peerNotFound
  | some i =>
    match m.slots[i]? with
    | none => .error .peerNotFound
    | some slot => .ok (body i slot)

/-- `on_ack` and `on_indirect_ack`. -/
def onAck (id : Uuid) (nowNs : UInt64) : Except SwimError SwimMembership :=
  m.onSlot id fun i slot => setSlot cfg m i (markAlive m slot nowNs)

def removePeer (id : Uuid) : Except SwimError SwimMembership :=
  m.onSlot id fun i slot =>
    if slot.health.state = .dead then m else setSlot cfg m i (markDead m slot)

/-- `on_ping_timeout` and `on_indirect_timeout`. -/
def onPingTimeout (id : Uuid) : Except SwimError SwimMembership :=
  m.onSlot id fun i slot =>
    if slot.health.state = .dead then m else setSlot cfg m i (miss cfg m slot)

def gossipedSlot (incoming : SwimEvent) (nowNs : UInt64) : PeerSlot :=
  { uuid := incoming.peer
    health :=
      { state := incoming.state
        lastHeartbeatNs := if incoming.state = .alive then nowNs else 0
        consecutiveMisses := incoming.consecutiveMisses
        incarnation := incoming.incarnation }
    lastSeenSequence := m.sequence }

/-- The slot of a known peer after newer gossip. -/
def refreshedSlot (slot : PeerSlot) (incoming : SwimEvent)
    (nowNs : UInt64) : PeerSlot :=
  { uuid := incoming.peer
    health :=
      { state := incoming.state
        lastHeartbeatNs := if incoming.state = .alive then nowNs else slot.health.lastHeartbeatNs
        consecutiveMisses := incoming.consecutiveMisses
        incarnation := incoming.incarnation }
    lastSeenSequence := m.sequence }

def applyGossip (incoming : SwimEvent) (nowNs : UInt64) :
    Except SwimError SwimMembership :=
  if incoming.peer.isZero then .error .zeroUuid
  else match m.findIndex incoming.peer with
    | none => pushSlot cfg m (gossipedSlot m incoming nowNs)
    | some _ =>
      m.onSlot incoming.peer fun i slot =>
        if eventNewer incoming slot then setSlot cfg m i (refreshedSlot m slot incoming nowNs)
        else m

/-- The slot that `next_probe` picks: the first one from the cursor on that is not dead. -/
def probeTarget : Option Nat :=
  ((range m.slots.length).map fun attempt => (m.probeCursor + attempt) % m.slots.length).find?
    fun i => (m.slots[i]?).any fun slot => slot.health.state != .dead

/-- `next_probe`, without the probe that it returns. -/
def nextProbe : SwimMembership :=
  match m.probeTarget with
  | none => m
  | some i =>
    { m with probeCursor := (i + 1) % m.slots.length, sequence := m.sequence + 1 }

def acknowledgePiggybacks (count : Nat) : SwimMembership :=
  { m with piggyback := m.piggyback.drop (min m.piggyback.length count) }

end SwimMembership

/-! ### Runs -/

/-- The operations of a membership that change it. -/
inductive SwimOp where
  | addPeer (id : Uuid)
  | removePeer (id : Uuid)
  | onAck (id : Uuid) (nowNs : UInt64)
  | onPingTimeout (id : Uuid)
  | applyGossip (incoming : SwimEvent) (nowNs : UInt64)
  | nextProbe
  | acknowledgePiggybacks (count : Nat)
deriving DecidableEq

namespace SwimMembership

variable (cfg : SwimConfig)

def call (m : SwimMembership) : SwimOp → Except SwimError SwimMembership
  | .addPeer id => m.addPeer cfg id
  | .removePeer id => m.removePeer cfg id
  | .onAck id nowNs => m.onAck cfg id nowNs
  | .onPingTimeout id => m.onPingTimeout cfg id
  | .applyGossip incoming nowNs => m.applyGossip cfg incoming nowNs
  | .nextProbe => .ok m.nextProbe
  | .acknowledgePiggybacks count => .ok (m.acknowledgePiggybacks count)

/-- The membership after one operation.  A refused operation changes nothing. -/
def step (m : SwimMembership) (op : SwimOp) : SwimMembership := (m.call cfg op).toOption.getD m

def run (m : SwimMembership) (ops : List SwimOp) : SwimMembership := ops.foldl (step cfg) m

def record (m : SwimMembership) (id : Uuid) : Option PeerSlot :=
  m.slots.find? fun slot => slot.uuid == id

def written (m : SwimMembership) : SwimOp → Option PeerSlot
  | .addPeer id =>
    if id.isZero = false ∧ m.record id = none ∧ m.slots.length < cfg.maxPeers then
      some { uuid := id, health := ⟨.alive, 0, 0, 1⟩ }
    else none
  | .onAck id nowNs => (m.record id).bind fun slot => some (markAlive m slot nowNs)
  | .onPingTimeout id => (m.record id).bind fun slot =>
    if slot.health.state = .dead then none else some (miss cfg m slot)
  | .removePeer id => (m.record id).bind fun slot =>
    if slot.health.state = .dead then none else some (markDead m slot)
  | .applyGossip incoming nowNs =>
    if incoming.peer.isZero then none
    else match m.record incoming.peer with
      | none =>
        if m.slots.length < cfg.maxPeers then some (gossipedSlot m incoming nowNs) else none
      | some slot =>
        if eventNewer incoming slot then some (refreshedSlot m slot incoming nowNs) else none
  | .nextProbe | .acknowledgePiggybacks _ => none

/-- The slot whose incarnation an operation adds one to. -/
def observed (m : SwimMembership) : SwimOp → Option PeerSlot
  | .onAck id _ => m.record id
  | .onPingTimeout id | .removePeer id =>
    (m.record id).filter fun slot => slot.health.state != .dead
  | _ => none

/-- A local observation does not find a peer at the largest incarnation. -/
def Steady (m : SwimMembership) (op : SwimOp) : Prop :=
  ∀ slot ∈ m.observed op, slot.health.incarnation.toNat < u64Max

end SwimMembership

/-- The pair of the incarnation and the state rank, in lexicographic order. -/
def versionKey (view : SwimState × UInt64) : ℕ ×ₗ ℕ := toLex (view.2.toNat, view.1.rank)

def PeerSlot.view (slot : PeerSlot) : SwimState × UInt64 :=
  (slot.health.state, slot.health.incarnation)

def SwimEvent.view (event : SwimEvent) : SwimState × UInt64 := (event.state, event.incarnation)

/-- The place of an event in the order. -/
def SwimEvent.key (event : SwimEvent) : ℕ ×ₗ ℕ := versionKey event.view

theorem versionKey_lt_iff {v w : SwimState × UInt64} : versionKey v < versionKey w ↔
      v.2.toNat < w.2.toNat ∨ v.2.toNat = w.2.toNat ∧ v.1.rank < w.1.rank :=
  Prod.Lex.toLex_lt_toLex

namespace SwimMembership

variable {cfg : SwimConfig} {m : SwimMembership} {op : SwimOp} {id : Uuid} {i : Nat}
  {slot : PeerSlot}

/-! ### Slots by their uuid -/

theorem findIndex_eq_none (h : m.findIndex id = none) : m.record id = none := by
  rw [findIndex, findIdx?_eq_none_iff] at h
  rw [record, find?_eq_none]
  intro slot hslot
  rw [h slot hslot]
  exact Bool.false_ne_true

theorem findIndex_eq_some (h : m.findIndex id = some i) :
    ∃ slot, m.slots[i]? = some slot ∧ m.record id = some slot ∧ slot.uuid = id := by
  rw [findIndex, findIdx?_eq_some_iff_getElem] at h
  obtain ⟨hi, hmat, hfir⟩ := h
  refine ⟨m.slots[i], getElem?_eq_getElem hi, ?_, eq_of_beq hmat⟩
  rw [record, find?_eq_some_iff_getElem]
  exact ⟨hmat, i, hi, rfl, fun j hj => by simpa using hfir j hj⟩

theorem lookup_cases (m : SwimMembership) (id : Uuid) : m.findIndex id = none ∧ m.record id = none ∨
    ∃ i slot, m.findIndex id = some i ∧ m.slots[i]? = some slot ∧ m.record id = some slot ∧
      slot.uuid = id := by
  cases h : m.findIndex id with
  | none => exact .inl ⟨rfl, findIndex_eq_none h⟩
  | some i =>
    obtain ⟨slot, hget, hrec, huuid⟩ := findIndex_eq_some h
    exact .inr ⟨i, slot, rfl, hget, hrec, huuid⟩

theorem lookup_known (h : m.record id = some slot) :
    ∃ i, m.findIndex id = some i ∧ m.slots[i]? = some slot ∧ slot.uuid = id := by
  rcases lookup_cases m id with ⟨-, hnone⟩ | ⟨i, found, hi, hget, hfound, huuid⟩
  · exact absurd (hnone.symm.trans h) (by simp)
  · cases hfound.symm.trans h
    exact ⟨i, hi, hget, huuid⟩

variable {slot' : PeerSlot}

theorem find?_set {slots : List PeerSlot} {id' : Uuid}
    (h : slots.findIdx? (fun slot => slot.uuid == id) = some i) (huuid : slot'.uuid = id) :
    (slots.set i slot').find? (fun slot => slot.uuid == id') =
      if id' = id then some slot' else slots.find? (fun slot => slot.uuid == id') := by
  induction slots generalizing i with
  | nil => simp at h
  | cons first slots ih =>
    rw [findIdx?_cons] at h
    by_cases hfir : first.uuid = id
    · -- the slot is the first one
      rw [if_pos (beq_iff_eq.mpr hfir)] at h
      cases h
      rw [set_cons_zero, find?_cons, find?_cons, huuid, hfir]
      by_cases hid : id' = id
      · rw [if_pos hid, hid, beq_self_eq_true]
      · rw [if_neg hid, beq_eq_false_iff_ne.mpr (Ne.symm hid)]
    · rw [if_neg (by simpa using hfir)] at h
      obtain ⟨j, hj, rfl⟩ := Option.map_eq_some_iff.mp h
      rw [set_cons_succ, find?_cons, find?_cons, ih hj]
      by_cases hid : first.uuid = id'
      · have hne : id' ≠ id := hid ▸ hfir
        rw [if_neg hne, if_neg hne]
      · rw [beq_eq_false_iff_ne.mpr hid]

variable {m' : SwimMembership}

theorem record_set (h : m.findIndex id = some i)
    (huuid : slot'.uuid = id) (hslots : m'.slots = m.slots.set i slot') (id' : Uuid) :
    m'.record id' = if id' = id then some slot' else m.record id' := by
  rw [record, hslots]
  exact find?_set h huuid

theorem record_push (h : m.record slot'.uuid = none) (hslots : m'.slots = m.slots ++ [slot'])
    (id' : Uuid) : m'.record id' = if id' = slot'.uuid then some slot' else m.record id' := by
  rw [record, hslots, find?_append, find?_singleton]
  by_cases hid : id' = slot'.uuid
  · rw [if_pos hid, hid, ← record, h, beq_self_eq_true]
    rfl
  · rw [if_neg hid, beq_eq_false_iff_ne.mpr (Ne.symm hid)]
    exact Option.or_none

/-! ### What one operation does to the records -/

theorem step_ok (h : m.call cfg op = .ok m') : step cfg m op = m' := by
  rw [step, h]
  rfl

theorem step_error {e : SwimError} (h : m.call cfg op = .error e) : step cfg m op = m := by
  rw [step, h]
  rfl

def recordWith (m : SwimMembership) (slot : Option PeerSlot) (id : Uuid) : Option PeerSlot :=
  slot.elim (m.record id) fun slot => if id = slot.uuid then some slot else m.record id

/-- The event that `append_event_` makes of a slot. -/
def event (m : SwimMembership) (slot : PeerSlot) : SwimEvent :=
  ⟨slot.uuid, slot.health.state, slot.health.consecutiveMisses, slot.health.incarnation,
    m.sequence + 1⟩

/-- The membership after a slot was written, if one was: that of its peer, or a new one. -/
def withSlot (cfg : SwimConfig) (m : SwimMembership) (slot : Option PeerSlot) : SwimMembership :=
  slot.elim m fun slot =>
    let slots := (m.findIndex slot.uuid).elim (m.slots ++ [slot]) (m.slots.set · slot)
    appendEvent cfg { m with slots := slots } slot

theorem record_withSlot (written : Option PeerSlot) (id : Uuid) :
    (withSlot cfg m written).record id = m.recordWith written id := by
  cases written with
  | none => rfl
  | some slot =>
    rcases lookup_cases m slot.uuid with ⟨hi, hrec⟩ | ⟨i, -, hi, -⟩
    · refine record_push hrec ?_ id
      rw [withSlot, Option.elim_some, hi]
      rfl
    · refine record_set hi rfl ?_ id
      rw [withSlot, Option.elim_some, hi]
      rfl

theorem step_onSlot {body : Nat → PeerSlot → SwimMembership} {f : PeerSlot → Option PeerSlot}
    (hcall : m.call cfg op = m.onSlot id body)
    (hbody : ∀ i slot, body i slot = (f slot).elim m (setSlot cfg m i))
    (huuid : ∀ slot slot', slot.uuid = id → f slot = some slot' → slot'.uuid = id) :
    step cfg m op = withSlot cfg m ((m.record id).bind f) := by
  rcases lookup_cases m id with ⟨hi, hrec⟩ | ⟨i, slot, hi, hget, hrec, hslot⟩
  · rw [step_error (by rw [hcall, onSlot, hi]), hrec]
    rfl
  · have hstep : step cfg m op = (f slot).elim m (setSlot cfg m i) :=
      step_ok (by simp only [hcall, onSlot, hi, hget, hbody])
    rw [hstep, hrec, Option.bind_some]
    cases hf : f slot with
    | none => rfl
    | some slot' =>
      have hi' : m.findIndex slot'.uuid = some i := by rw [huuid slot slot' hslot hf, hi]
      simp only [withSlot, Option.elim_some, hi']
      rfl

theorem step_pushSlot (hcall : m.call cfg op = pushSlot cfg m slot)
    (h : m.findIndex slot.uuid = none) : step cfg m op =
      withSlot cfg m (if m.slots.length < cfg.maxPeers then some slot else none) := by
  rw [pushSlot] at hcall
  split at hcall
  · rw [step_ok hcall, if_pos ‹_›, withSlot, Option.elim_some, h]
    rfl
  · rw [step_error hcall, if_neg ‹_›]
    rfl

variable {incoming held : SwimEvent} {nowNs x : UInt64}

/-- An operation writes its slot and appends the event of the slot, but for `next_probe` and an
acknowledgement. -/
theorem step_written (hprobe : op ≠ .nextProbe) (hack : ∀ count, op ≠ .acknowledgePiggybacks count) :
    step cfg m op = withSlot cfg m (written cfg m op) := by
  cases op with
  | addPeer peer =>
    by_cases hzero : peer.isZero = true
    · have hcall : m.call cfg (.addPeer peer) = .error .zeroUuid := if_pos hzero
      rw [step_error hcall, written, hzero]
      rfl
    · have hcall : m.call cfg (.addPeer peer) = _ := if_neg hzero
      rcases lookup_cases m peer with ⟨hi, hrec⟩ | ⟨i, slot, hi, -, hrec, -⟩ <;> rw [hi] at hcall
      · rw [step_pushSlot hcall hi, written]
        simp only [hzero, hrec, true_and]
      · rw [step_error hcall, written, hrec]
        simp only [reduceCtorEq, false_and, and_false, if_false]
        rfl
  | onAck peer nowNs =>
    exact step_onSlot rfl (fun _ _ => rfl) (by rintro slot _ huuid ⟨⟩; exact huuid)
  | onPingTimeout peer | removePeer peer =>
    refine step_onSlot rfl (fun i slot => ?_) (fun slot slot' huuid h => ?_)
    · split <;> rfl
    · split at h <;> cases h
      exact huuid
  | applyGossip incoming nowNs =>
    by_cases hzero : incoming.peer.isZero = true
    · have hcall : m.call cfg (.applyGossip incoming nowNs) = .error .zeroUuid := if_pos hzero
      rw [step_error hcall, written, if_pos hzero]
      rfl
    · have hcall : m.call cfg (.applyGossip incoming nowNs) = _ := if_neg hzero
      rw [written, if_neg hzero]
      rcases lookup_cases m incoming.peer with ⟨hi, hrec⟩ | ⟨i, slot, hi, -, hrec, -⟩ <;>
        rw [hi] at hcall
      · rw [step_pushSlot hcall hi, hrec]
      · rw [hrec]
        refine (step_onSlot (f := fun slot => if eventNewer incoming slot then
          some (refreshedSlot m slot incoming nowNs) else none) hcall (fun i slot => ?_)
          (fun slot slot' _ h => ?_)).trans (by rw [hrec]; rfl)
        · split <;> rfl
        · split at h <;> cases h
          rfl
  | nextProbe => exact absurd rfl hprobe
  | acknowledgePiggybacks count => exact absurd rfl (hack count)

theorem nextProbe_frame : m.nextProbe.slots = m.slots ∧ m.nextProbe.piggyback = m.piggyback := by
  rw [nextProbe]
  cases m.probeTarget <;> exact ⟨rfl, rfl⟩

variable (cfg m op) in
/-- **The records after one operation**: the slot that is written, and the others as before. -/
theorem record_step (id : Uuid) :
    (step cfg m op).record id = m.recordWith (written cfg m op) id := by
  cases op with
  | nextProbe => exact congrArg (find? _) nextProbe_frame.1
  | acknowledgePiggybacks count => rfl
  | _ =>
    refine (congrArg (record · id) (step_written ?_ ?_)).trans (record_withSlot _ id) <;> nofun

/-! ### The queue of events -/

def appended (cfg : SwimConfig) : SwimMembership → List SwimOp → List SwimEvent
  | _, [] => []
  | m, op :: ops => ((written cfg m op).map m.event).toList ++ appended cfg (step cfg m op) ops

/-- The queue after operations, none of which takes events from it. -/
theorem piggyback_run {ops : List SwimOp} (hack : ∀ count, .acknowledgePiggybacks count ∉ ops) :
    (run cfg m ops).piggyback =
      EvictingQueue.pushAll cfg.maxPiggyback m.piggyback (appended cfg m ops) := by
  induction ops generalizing m with
  | nil => rfl
  | cons op ops ih =>
    have hstep : (step cfg m op).piggyback = EvictingQueue.pushAll cfg.maxPiggyback m.piggyback
        ((written cfg m op).map m.event).toList := by
      by_cases hprobe : op = .nextProbe
      · subst hprobe
        exact nextProbe_frame.2
      · rw [step_written hprobe fun count h => hack count (h ▸ mem_cons_self)]
        cases written cfg m op <;> rfl
    refine (ih fun count h => hack count (mem_cons_of_mem _ h)).trans ?_
    rw [hstep, appended, EvictingQueue.pushAll, EvictingQueue.pushAll, ← foldl_append]
    rfl

/-! ### Records only move forward -/

theorem eventNewer_iff :
    eventNewer incoming slot = true ↔ versionKey slot.view < versionKey incoming.view := by
  rw [versionKey_lt_iff]
  change _ ↔ slot.health.incarnation.toNat < incoming.incarnation.toNat ∨
    slot.health.incarnation.toNat = incoming.incarnation.toNat ∧
      slot.health.state.rank < incoming.state.rank
  rw [eventNewer]
  by_cases hne : incoming.incarnation ≠ slot.health.incarnation
  · have hnat : slot.health.incarnation.toNat ≠ incoming.incarnation.toNat :=
      fun h => hne (UInt64.toNat_inj.mp h).symm
    rw [if_pos hne, decide_eq_true_iff, UInt64.lt_iff_toNat_lt]
    omega
  · rw [if_neg hne, decide_eq_true_iff, not_not.mp hne]
    omega

/-- Every peer that is known stays known, under a pair that is not smaller. -/
def Advances (m m' : SwimMembership) : Prop :=
  ∀ id slot, m.record id = some slot →
    ∃ slot', m'.record id = some slot' ∧ versionKey slot.view ≤ versionKey slot'.view

theorem Advances.refl (m : SwimMembership) : Advances m m :=
  fun _ slot hslot => ⟨slot, hslot, le_rfl⟩

theorem Advances.trans {m'' : SwimMembership} (h : Advances m m') (h' : Advances m' m'') :
    Advances m m'' := by
  intro id slot hslot
  obtain ⟨slot', hslot', hle⟩ := h id slot hslot
  obtain ⟨slot'', hslot'', hle'⟩ := h' id slot' hslot'
  exact ⟨slot'', hslot'', hle.trans hle'⟩

variable (cfg m op) in
theorem advances_step_iff : Advances m (step cfg m op) ↔ ∀ slot' ∈ written cfg m op,
    ∀ slot, m.record slot'.uuid = some slot → versionKey slot.view ≤ versionKey slot'.view := by
  constructor
  · intro h slot' hw slot hrec
    obtain ⟨after, haft, hle⟩ := h _ slot hrec
    rw [record_step, hw, recordWith, Option.elim_some, if_pos rfl] at haft
    cases haft
    exact hle
  · intro h id slot hrec
    rw [record_step]
    cases hw : written cfg m op with
    | none => exact ⟨slot, hrec, le_rfl⟩
    | some slot' =>
      rw [recordWith, Option.elim_some]
      by_cases hid : id = slot'.uuid
      · rw [if_pos hid]
        exact ⟨slot', rfl, h slot' hw slot (hid ▸ hrec)⟩
      · rw [if_neg hid]
        exact ⟨slot, hrec, le_rfl⟩

theorem incarnation_succ (h : x.toNat < u64Max) : (x + 1).toNat = x.toNat + 1 := by
  exact Nat.mod_eq_of_lt (lt_of_lt_of_le (Nat.succ_lt_succ h) (by decide))

theorem incarnation_wraps (h : u64Max ≤ x.toNat) : (x + 1).toNat = 0 := by
  have hlt : x.toNat < 2 ^ 64 := x.toNat_lt
  have hx : x.toNat = u64Max := le_antisymm (Nat.le_of_lt_succ hlt) h
  rw [UInt64.toNat_add, hx]
  rfl

theorem bumped_le_iff (h : slot'.health.incarnation = slot.health.incarnation + 1) :
    versionKey slot.view ≤ versionKey slot'.view ↔ slot.health.incarnation.toNat < u64Max := by
  have hview : slot'.view.2.toNat = (slot.view.2 + 1).toNat := congrArg UInt64.toNat h
  by_cases hmax : slot.view.2.toNat < u64Max
  · refine iff_of_true (le_of_lt (versionKey_lt_iff.mpr (.inl ?_))) hmax
    rw [hview, incarnation_succ hmax]
    exact lt_add_one _
  · -- at the largest incarnation the new pair is smaller
    refine iff_of_false (not_le.mpr (versionKey_lt_iff.mpr (.inl ?_))) hmax
    rw [hview, incarnation_wraps (Nat.le_of_not_lt hmax)]
    exact lt_of_lt_of_le (by decide) (Nat.le_of_not_lt hmax)

variable (cfg) in
/-- **One step**: the records advance exactly when the operation is steady. -/
theorem step_advances_iff : Advances m (step cfg m op) ↔ Steady m op := by
  have hbumped : ∀ {id} {slot slot' : PeerSlot}, m.record id = some slot → slot'.uuid = slot.uuid →
      slot'.health.incarnation = slot.health.incarnation + 1 →
      ((∀ found, m.record slot'.uuid = some found →
        versionKey found.view ≤ versionKey slot'.view) ↔
          slot.health.incarnation.toNat < u64Max) := by
    intro id slot slot' hrec huuid hinc
    obtain ⟨-, -, -, rfl⟩ := lookup_known hrec
    simp only [huuid, hrec, Option.some.injEq, forall_eq', bumped_le_iff hinc]
  rw [advances_step_iff]
  cases op with
  | addPeer id =>
    refine iff_of_true (fun slot' hw slot hrec => ?_) nofun
    rw [written, Option.mem_def, Option.ite_none_right_eq_some] at hw
    obtain ⟨⟨-, hnone, -⟩, ⟨⟩⟩ := hw
    cases hnone.symm.trans hrec
  | onAck id nowNs =>
    cases hrec : m.record id with
    | none => simp [written, Steady, observed, hrec]
    | some slot =>
      simp only [written, Steady, observed, hrec, Option.bind_some, Option.mem_def,
        Option.some.injEq, forall_eq']
      exact hbumped hrec rfl rfl
  | onPingTimeout id | removePeer id =>
    cases hrec : m.record id with
    | none => simp [written, Steady, observed, hrec]
    | some slot =>
      by_cases hdead : slot.health.state = .dead
      · simp [written, Steady, observed, hrec, hdead]
      · have hlive : (slot.health.state != .dead) = true := by simpa using hdead
        simp only [written, Steady, observed, hrec, Option.bind_some, Option.filter_some,
          if_neg hdead, if_pos hlive, Option.mem_def, Option.some.injEq, forall_eq']
        exact hbumped hrec rfl rfl
  | applyGossip incoming nowNs =>
    refine iff_of_true (fun slot' hw slot hrec => ?_) nofun
    rw [written, Option.mem_def, Option.ite_none_left_eq_some] at hw
    obtain ⟨-, hw⟩ := hw
    cases hfound : m.record incoming.peer with
    | none =>
      rw [hfound, Option.ite_none_right_eq_some] at hw
      obtain ⟨-, ⟨⟩⟩ := hw
      cases hfound.symm.trans hrec
    | some found =>
      rw [hfound, Option.ite_none_right_eq_some] at hw
      obtain ⟨hnew, ⟨⟩⟩ := hw
      cases hfound.symm.trans hrec
      exact (eventNewer_iff.mp hnew).le
  | nextProbe => exact iff_of_true nofun nofun
  | acknowledgePiggybacks count => exact iff_of_true nofun nofun

def stateAt (cfg : SwimConfig) (m : SwimMembership) (ops : List SwimOp) (k : Nat) :
    SwimMembership :=
  run cfg m (ops.take k)

theorem stateAt_succ {ops : List SwimOp} {k : Nat} (hk : k < ops.length) :
    stateAt cfg m ops (k + 1) = step cfg (stateAt cfg m ops k) ops[k] := by
  rw [stateAt, run, take_succ_eq_append_getElem hk, foldl_append]
  rfl

/-- **Whole runs**: no record ever moves back exactly when every operation is steady. -/
theorem run_advances_iff (ops : List SwimOp) :
    (∀ i j, i ≤ j → j ≤ ops.length → Advances (stateAt cfg m ops i) (stateAt cfg m ops j)) ↔
    ∀ k (hk : k < ops.length), Steady (stateAt cfg m ops k) ops[k] := by
  constructor
  · intro h k hk
    rw [← step_advances_iff cfg, ← stateAt_succ hk]
    exact h k (k + 1) (Nat.le_succ k) hk
  · intro h i j hij
    induction j, hij using Nat.le_induction with
    | base => exact fun _ => Advances.refl _
    | succ j hij ih =>
      intro hj
      refine (ih (Nat.le_of_succ_le hj)).trans ?_
      rw [stateAt_succ hj, step_advances_iff cfg]
      exact h j hj

theorem step_gossip_old (hrec : m.record incoming.peer = some slot)
    (hold : versionKey incoming.view ≤ versionKey slot.view) :
    step cfg m (.applyGossip incoming nowNs) = m := by
  obtain ⟨i, hi, hget, -⟩ := lookup_known hrec
  have hnot : ¬ eventNewer incoming slot = true := fun h => (eventNewer_iff.mp h).not_ge hold
  simp only [step, call, applyGossip, onSlot, hi, hget, if_neg hnot]
  split <;> rfl

variable (cfg) in
theorem step_gossip_new (nowNs : UInt64)
    (hzero : incoming.peer.isZero = false) (hrec : m.record incoming.peer = some slot)
    (hnew : versionKey slot.view < versionKey incoming.view) :
    ∃ slot', (step cfg m (.applyGossip incoming nowNs)).record incoming.peer = some slot' ∧
      slot'.view = incoming.view := by
  refine ⟨refreshedSlot m slot incoming nowNs, ?_, rfl⟩
  simp [record_step, written, hzero, hrec, eventNewer_iff.mpr hnew, recordWith, refreshedSlot]

/-! ### Gossip about one peer -/

def deliveries (events : List (SwimEvent × UInt64)) : List SwimOp :=
  events.map fun delivery => .applyGossip delivery.1 delivery.2

/-- The state and the incarnation that are recorded for a peer. -/
def viewOf (m : SwimMembership) (id : Uuid) : Option (SwimState × UInt64) :=
  (m.record id).map PeerSlot.view

theorem viewOf_deliveries {events : List (SwimEvent × UInt64)}
    (hzero : id.isZero = false) (hview : m.viewOf id = some held.view)
    (hpeer : ∀ delivery ∈ events, delivery.1.peer = id) :
    (run cfg m (deliveries events)).viewOf id =
      some (newestOf SwimEvent.key held (events.map Prod.fst)).view := by
  induction events generalizing m held with
  | nil => exact hview
  | cons delivery events ih =>
    obtain ⟨incoming, nowNs⟩ := delivery
    have hpeer' : incoming.peer = id := hpeer _ mem_cons_self
    have htail : ∀ delivery ∈ events, delivery.1.peer = id :=
      fun delivery hmem => hpeer delivery (mem_cons_of_mem _ hmem)
    obtain ⟨slot, hrec, hslot⟩ := Option.map_eq_some_iff.mp hview
    rw [← hpeer'] at hrec
    change (run cfg (step cfg m (.applyGossip incoming nowNs)) (deliveries events)).viewOf id = _
    rw [map_cons, newestOf_cons]
    rcases lt_or_ge held.key incoming.key with hnew | hold
    · rw [newest_of_lt hnew]
      obtain ⟨slot', hrec', hview'⟩ := step_gossip_new cfg nowNs
        (hpeer' ▸ hzero) hrec (by rw [hslot]; exact hnew)
      apply ih _ htail
      rw [viewOf, ← hpeer', hrec']
      exact congrArg some hview'
    · rw [newest_of_le hold, step_gossip_old hrec (by rw [hslot]; exact hold)]
      exact ih hview htail

/-- The event that would have left the record that a slot holds. -/
def heldEvent (slot : PeerSlot) : SwimEvent :=
  { peer := slot.uuid, state := slot.health.state, incarnation := slot.health.incarnation }

theorem topAgree_of_enumerators {events : List SwimEvent}
    (h : ∀ e ∈ events, e.state = .alive ∨ e.state = .suspect ∨ e.state = .dead) :
    TopAgree SwimEvent.key SwimEvent.view held events := by
  intro a ha b hb _ hkey _
  have hpair := Prod.ext_iff.mp (toLex_inj.mp hkey)
  have hinc : b.incarnation = a.incarnation := UInt64.toNat_inj.mp hpair.1
  have hrank : b.state.rank = a.state.rank := hpair.2
  refine Prod.ext ?_ hinc
  change b.state = a.state
  rcases h a ha with hs | hs | hs <;> rcases h b hb with ht | ht | ht <;> rw [hs, ht] at hrank ⊢
  all_goals exact absurd hrank (by decide)

end SwimMembership

open SwimMembership in
/-- **The order of the records over a whole run.**  No record of a run ever moves back
exactly when no operation observes a peer at the largest incarnation; in such a run an
event that was not newer at one time is never applied at a later one; and what a set of
events leaves recorded for a known peer depends neither on their order nor on their
repetition exactly when the newest of them carry the same state. -/
theorem swim_records_ordered_iff (cfg : SwimConfig) (m : SwimMembership) (ops : List SwimOp) :
    ((∀ i j, i ≤ j → j ≤ ops.length → Advances (stateAt cfg m ops i) (stateAt cfg m ops j)) ↔
      ∀ k (hk : k < ops.length), Steady (stateAt cfg m ops k) ops[k]) ∧
    ((∀ k (hk : k < ops.length), Steady (stateAt cfg m ops k) ops[k]) →
      ∀ i j, i ≤ j → j ≤ ops.length → ∀ incoming nowNs slot,
        (stateAt cfg m ops i).record incoming.peer = some slot →
        eventNewer incoming slot = false →
        step cfg (stateAt cfg m ops j) (.applyGossip incoming nowNs) = stateAt cfg m ops j) ∧
    ∀ id slot, id.isZero = false → m.record id = some slot →
      ∀ events : List (SwimEvent × UInt64), (∀ delivery ∈ events, delivery.1.peer = id) →
        ((∀ events' : List (SwimEvent × UInt64),
            (∀ e, e ∈ events'.map Prod.fst ↔ e ∈ events.map Prod.fst) →
            (run cfg m (deliveries events')).viewOf id =
              (run cfg m (deliveries events)).viewOf id) ↔
          TopAgree SwimEvent.key SwimEvent.view (heldEvent slot) (events.map Prod.fst)) := by
  refine ⟨run_advances_iff ops, ?_, ?_⟩
  · intro hsteady i j hij hj incoming nowNs slot hrecord hold
    obtain ⟨slot', hrecord', hle⟩ := (run_advances_iff ops).mpr hsteady i j hij hj _ slot hrecord
    apply step_gossip_old hrecord'
    refine le_trans ?_ hle
    rw [← not_lt, ← eventNewer_iff, hold]
    exact Bool.false_ne_true
  · intro id slot hzero hrecord events hpeer
    have hview : m.viewOf id = some (heldEvent slot).view := by
      rw [viewOf, hrecord]
      rfl
    rw [← newestOf_determined_iff SwimEvent.view (heldEvent slot) (events.map Prod.fst)]
    have hsame : ∀ events' : List (SwimEvent × UInt64),
        (∀ e, e ∈ events'.map Prod.fst ↔ e ∈ events.map Prod.fst) →
        ∀ delivery ∈ events', delivery.1.peer = id := by
      intro events' hmem delivery hdelivery
      obtain ⟨original, horiginal, heq⟩ :=
        mem_map.mp ((hmem delivery.1).mp (mem_map_of_mem hdelivery))
      rw [← heq]
      exact hpeer original horiginal
    constructor
    · -- a list of events is a list of deliveries at time zero
      intro h offers hoffers
      have hfst : (offers.map fun e => ((e, 0) : SwimEvent × UInt64)).map Prod.fst = offers := by
        rw [map_map]
        exact map_id offers
      have hdelivered := h (offers.map fun e => (e, 0)) (by rw [hfst]; exact hoffers)
      rw [viewOf_deliveries hzero hview (hsame _ (by rw [hfst]; exact hoffers)),
        viewOf_deliveries hzero hview hpeer, hfst] at hdelivered
      exact Option.some.inj hdelivered
    · intro h events' hmem
      rw [viewOf_deliveries hzero hview (hsame events' hmem),
        viewOf_deliveries hzero hview hpeer, h _ hmem]

/-! ### Suspicion

The count of misses is shared: a timeout adds one, and gossip overwrites it with the count that the
sender put there. -/

namespace SwimMembership

/-- Where the misses of a peer come from: what the last gossip or admission carried, the timeouts
since then, and the timeouts since the last ack, revival or admission. -/
structure Misses where
  carried : Nat := 0
  since : Nat := 0
  timeouts : Nat := 0
deriving DecidableEq

/-- One operation on membership `m`.  Gossip revives a peer that it calls alive, or that was dead
or unknown. -/
def Misses.step (cfg : SwimConfig) (id : Uuid) (m : SwimMembership) (h : Misses) (op : SwimOp) :
    Misses :=
  match (written cfg m op).filter fun slot => slot.uuid == id, op with
  | some _, .onAck _ _ | some _, .addPeer _ => {}
  | some _, .onPingTimeout _ => { h with since := h.since + 1, timeouts := h.timeouts + 1 }
  | some slot, .applyGossip _ _ =>
    { carried := slot.health.consecutiveMisses.toNat
      timeouts := if slot.health.state = .alive ∨
          (m.record id).all (fun slot => slot.health.state == .dead) then 0 else h.timeouts }
  | _, _ => h

def misses (cfg : SwimConfig) (id : Uuid) : SwimMembership → Misses → List SwimOp → Misses
  | _, h, [] => h
  | m, h, op :: ops => misses cfg id (step cfg m op) (h.step cfg id m op) ops

/-- The count that is recorded for a peer that is not dead, by where it comes from. -/
def Counts (id : Uuid) (m : SwimMembership) (h : Misses) : Prop :=
  ∀ slot, m.record id = some slot → slot.health.state ≠ .dead →
    slot.health.consecutiveMisses.toNat = min u32Max (h.carried + h.since)

variable {cfg : SwimConfig} {m : SwimMembership} {op : SwimOp} {id : Uuid} {slot : PeerSlot}

theorem miss_misses : (miss cfg m slot).health.consecutiveMisses.toNat =
    min u32Max (slot.health.consecutiveMisses.toNat + 1) := by
  have hlt := slot.health.consecutiveMisses.toNat_lt
  rw [miss]
  dsimp only
  split
  · omega
  · rw [UInt32.toNat_add, UInt32.toNat_one]
    unfold u32Max at *
    omega

theorem Counts.step {h : Misses} (hc : Counts id m h) :
    Counts id (step cfg m op) (h.step cfg id m op) := by
  intro slot' hrec hlive
  have hor : ((written cfg m op).filter fun slot => slot.uuid == id).or (m.record id) =
      some slot' := by
    rw [← hrec, record_step, recordWith]
    cases written cfg m op with
    | none => rfl
    | some new =>
      rw [Option.filter_some]
      by_cases hid : id = new.uuid
      · simp [hid]
      · simp [hid, Ne.symm hid]
  unfold Misses.step
  cases hf : (written cfg m op).filter fun slot => slot.uuid == id with
  | none =>
    rw [hf] at hor
    exact hc slot' hor hlive
  | some new =>
    rw [hf] at hor
    cases hor
    obtain ⟨hw, hid⟩ := Option.filter_eq_some_iff.mp hf
    cases op with
    | addPeer peer =>
      obtain ⟨-, ⟨⟩⟩ := Option.ite_none_right_eq_some.mp hw
      rfl
    | onAck peer nowNs =>
      obtain ⟨slot, -, ⟨⟩⟩ := Option.bind_eq_some_iff.mp hw
      rfl
    | onPingTimeout peer =>
      obtain ⟨slot, hslot, hwrite⟩ := Option.bind_eq_some_iff.mp hw
      obtain ⟨hnot, ⟨⟩⟩ := Option.ite_none_left_eq_some.mp hwrite
      obtain ⟨-, -, -, hpeer⟩ := lookup_known hslot
      obtain rfl : peer = id := hpeer.symm.trans (eq_of_beq hid)
      change _ = min u32Max (h.carried + (h.since + 1))
      rw [miss_misses, hc slot hslot hnot]
      omega
    | removePeer peer =>
      obtain ⟨slot, hslot, hwrite⟩ := Option.bind_eq_some_iff.mp hw
      obtain ⟨hnot, ⟨⟩⟩ := Option.ite_none_left_eq_some.mp hwrite
      exact absurd rfl hlive
    | applyGossip incoming nowNs =>
      exact (min_eq_right (Nat.le_of_lt_succ slot'.health.consecutiveMisses.toNat_lt)).symm
    | nextProbe => cases hw
    | acknowledgePiggybacks count => cases hw

theorem Counts.run {h : Misses} (hc : Counts id m h) (ops : List SwimOp) :
    Counts id (run cfg m ops) (misses cfg id m h ops) := by
  induction ops generalizing m h with
  | nil => exact hc
  | cons op ops ih => exact ih hc.step

end SwimMembership

open SwimMembership in
/-- **The suspicion rule.**  After any run, the next timeout of a peer kills it only after as many
reported timeouts as the rule asks for, exactly if the misses that the last gossip carried and the
timeouts since then do not reach that number earlier. -/
theorem suspicion_rule_iff (cfg : SwimConfig) (ops : List SwimOp) {id : Uuid} {slot : PeerSlot}
    (hrecord : (run cfg {} ops).record id = some slot) (hlive : slot.health.state ≠ .dead) :
    ((∃ after, (step cfg (run cfg {} ops) (.onPingTimeout id)).record id = some after ∧
        after.health.state = .dead) →
      cfg.suspicionMisses ≤ (misses cfg id {} {} ops).timeouts + 1) ↔
    (cfg.suspicionMisses ≤ min u32Max
        ((misses cfg id {} {} ops).carried + (misses cfg id {} {} ops).since + 1) →
      cfg.suspicionMisses ≤ (misses cfg id {} {} ops).timeouts + 1) := by
  obtain ⟨-, -, -, huuid⟩ := lookup_known hrecord
  have hempty : Counts id {} {} := nofun
  have hcounts : Counts id (run cfg {} ops) (misses cfg id {} {} ops) := hempty.run ops
  have hnext : (step cfg (run cfg {} ops) (.onPingTimeout id)).record id =
      some (miss cfg (run cfg {} ops) slot) := by
    simp only [record_step, written, hrecord, Option.bind_some, if_neg hlive, recordWith,
      Option.elim_some]
    exact if_pos huuid.symm
  have hdead : (miss cfg (run cfg {} ops) slot).health.state = .dead ↔ cfg.suspicionMisses ≤
      (miss cfg (run cfg {} ops) slot).health.consecutiveMisses.toNat := by
    rw [miss, ite_eq_left_iff]
    exact ⟨fun h => of_not_not fun hfew => absurd (h hfew) (by decide), fun h hfew => absurd h hfew⟩
  have hsat : ∀ a : Nat, min u32Max (min u32Max a + 1) = min u32Max (a + 1) := by omega
  rw [miss_misses, hcounts slot hrecord hlive, hsat] at hdead
  rw [hnext, ← hdead]
  simp only [Option.some.injEq, exists_eq_left']

section Runs

open SwimMembership

def fourPeers : SwimConfig := { maxPeers := 4, maxPiggyback := 4 }

def onePeer : Uuid := ⟨0, 1⟩

def joined : SwimMembership := run fourPeers {} [.addPeer onePeer]

/-- An ack and a suspicion from outside keep the order, and three notices about the peer
may come in any order. -/
theorem swim_records_ordered_suspicion : Advances (stateAt fourPeers joined [.onAck onePeer 5,
        .applyGossip { peer := onePeer, state := .suspect, incarnation := 2 } 6] 0)
      (stateAt fourPeers joined [.onAck onePeer 5,
        .applyGossip { peer := onePeer, state := .suspect, incarnation := 2 } 6] 2) ∧
    (run fourPeers joined (deliveries
        [({ peer := onePeer, state := .dead, incarnation := 3 }, 1),
          ({ peer := onePeer, state := .alive, incarnation := 4 }, 2)])).viewOf onePeer =
      (run fourPeers joined (deliveries
        [({ peer := onePeer, state := .alive, incarnation := 4 }, 7),
          ({ peer := onePeer, state := .dead, incarnation := 3 }, 8),
          ({ peer := onePeer, state := .alive, incarnation := 4 }, 9)])).viewOf onePeer := by
  obtain ⟨hrun, -, -⟩ := swim_records_ordered_iff fourPeers joined [.onAck onePeer 5,
    .applyGossip { peer := onePeer, state := .suspect, incarnation := 2 } 6]
  obtain ⟨-, -, hevents⟩ := swim_records_ordered_iff fourPeers joined []
  refine ⟨hrun.mpr ?_ 0 2 (by decide) (by decide), ?_⟩
  · intro k hk slot hslot
    match k, hk with
    | 0, _ =>
      cases hslot
      decide
    | 1, _ => cases hslot
  · refine (hevents onePeer _ rfl rfl
      [({ peer := onePeer, state := .alive, incarnation := 4 }, 7),
        ({ peer := onePeer, state := .dead, incarnation := 3 }, 8),
        ({ peer := onePeer, state := .alive, incarnation := 4 }, 9)] (by decide)).mpr ?_ _ ?_
    · apply topAgree_of_enumerators
      decide
    · simp only [map_cons, map_nil, mem_cons, not_mem_nil, or_false]
      tauto

/-- Gossip takes the peer to the largest incarnation, where an old death notice is no
news.  The next ack takes the record back to incarnation zero, and the same notice then
kills the peer.  Of two states without an enumerator at one incarnation the first one
stays. -/
theorem swim_record_rolls_back : (run fourPeers joined [.applyGossip
        { peer := onePeer, state := .alive, incarnation := 18446744073709551615 } 7]).viewOf
        onePeer = some (.alive, 18446744073709551615) ∧
    (run fourPeers joined [.applyGossip
        { peer := onePeer, state := .alive, incarnation := 18446744073709551615 } 7,
      .applyGossip { peer := onePeer, state := .dead, incarnation := 1 } 8]).viewOf
        onePeer = some (.alive, 18446744073709551615) ∧
    (run fourPeers joined [.applyGossip
        { peer := onePeer, state := .alive, incarnation := 18446744073709551615 } 7,
      .onAck onePeer 8]).viewOf onePeer = some (.alive, 0) ∧
    (run fourPeers joined [.applyGossip
        { peer := onePeer, state := .alive, incarnation := 18446744073709551615 } 7,
      .onAck onePeer 8,
      .applyGossip { peer := onePeer, state := .dead, incarnation := 1 } 9]).viewOf
        onePeer = some (.dead, 1) ∧
    (run fourPeers joined (deliveries
        [({ peer := onePeer, state := ⟨2⟩, incarnation := 9 }, 1),
          ({ peer := onePeer, state := ⟨3⟩, incarnation := 9 }, 2)])).viewOf onePeer ≠
      (run fourPeers joined (deliveries
        [({ peer := onePeer, state := ⟨3⟩, incarnation := 9 }, 1),
          ({ peer := onePeer, state := ⟨2⟩, incarnation := 9 }, 2)])).viewOf onePeer := by
  refine ⟨?_, ?_, ?_, ?_, ?_⟩ <;> decide

theorem suspicion_rule_twoTimeouts : fourPeers.suspicionMisses ≤
    (misses fourPeers onePeer {} {} [.addPeer onePeer, .onPingTimeout onePeer]).timeouts + 1 :=
  (suspicion_rule_iff fourPeers [.addPeer onePeer, .onPingTimeout onePeer] rfl (by decide)).mpr
    (by decide) ⟨_, rfl, rfl⟩

/-- A suspicion with five misses comes from outside, and the first timeout kills the peer. -/
theorem suspicion_rule_gossiped :
    (run fourPeers joined [.applyGossip
        { peer := onePeer, state := .suspect, consecutiveMisses := 5, incarnation := 2 } 1,
      .onPingTimeout onePeer]).viewOf onePeer = some (.dead, 3) ∧
    (misses fourPeers onePeer {} {} [.addPeer onePeer, .applyGossip
        { peer := onePeer, state := .suspect, consecutiveMisses := 5, incarnation := 2 } 1,
      .onPingTimeout onePeer]).timeouts < fourPeers.suspicionMisses := by
  decide

end Runs

end Crucible
