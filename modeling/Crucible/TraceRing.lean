import Crucible.RingBuffer
import Crucible.Types
import Mathlib.Data.List.Forall2

/-! # The trace ring

One thread appends entries with three columns and another drains them in batches.  Each
side owns one counter and reads the other's.  The producer keeps a private copy of the tail
and reads the real one only when the ring looks full.  A call is cut at its reads and writes
of the shared counters, and a run is any interleaving of the pieces of the two sides.
-/
namespace Crucible
open List

/-- `TraceRing::MASK`, one less than `CAPACITY`. -/
def traceRingMask : Nat := 2 ^ 16 - 1

structure RingItem (E : Type) where
  entry : E
  metaStart : Option Nat
  scopeHash : Nat
  callsiteHash : Nat
deriving Inhabited

/-- `TraceRing`.  A write of a counter that would wrap violates its contract. -/
structure TraceRing (E : Type) where
  head : Nat := 0
  tail : Nat := 0
  consumerTail : Nat := 0
  cachedTail : Nat := 0
  entries : Nat → E
  metaStarts : Nat → Option Nat := fun _ => none
  scopeHashes : Nat → Nat := fun _ => 0
  callsiteHashes : Nat → Nat := fun _ => 0

/-- Which of its optional columns a drain asks for.  A `try_pop_batch` asks for all. -/
structure Columns where
  metaStarts : Bool := true
  scopeHashes : Bool := true
  callsiteHashes : Bool := true

/-- The out arrays of a drain. -/
structure Batch (E : Type) where
  entries : List E
  metaStarts : Option (List (Option Nat))
  scopeHashes : Option (List Nat)
  callsiteHashes : Option (List Nat)

namespace TraceRing
variable {E : Type}

/-- The four slot writes of `try_append`. -/
def storeItem (r : TraceRing E) (item : RingItem E) : TraceRing E :=
  let slot := wrap32 r.head &&& traceRingMask
  { r with
    entries := Function.update r.entries slot item.entry
    metaStarts := Function.update r.metaStarts slot item.metaStart
    scopeHashes := Function.update r.scopeHashes slot item.scopeHash
    callsiteHashes := Function.update r.callsiteHashes slot item.callsiteHash }

/-- The copies of a drain, each in one or two pieces. -/
def copyOut (r : TraceRing E) (want : Columns) (count : Nat) : Batch E :=
  let start := wrap32 r.consumerTail
  { entries := Ring.read traceRingMask r.entries start count
    metaStarts := if want.metaStarts then
      some (Ring.read traceRingMask r.metaStarts start count) else none
    scopeHashes := if want.scopeHashes then
      some (Ring.read traceRingMask r.scopeHashes start count) else none
    callsiteHashes := if want.callsiteHashes then
      some (Ring.read traceRingMask r.callsiteHashes start count) else none }

end TraceRing

/-- Where the producer is in `try_append`. -/
inductive RingProducer (E : Type) where
  | idle
  | refresh (item : RingItem E)
  | store (item : RingItem E)
  | publish (item : RingItem E)

/-- Where the consumer is in `drain` or `try_pop_batch`. -/
inductive RingConsumer (E : Type) where
  | idle
  | copy (want : Columns) (count : Nat)
  | publish (want : Columns) (batch : Batch E) (count : Nat)

/-- The ring, its two sides, and what an observer has seen of the calls. -/
structure RingRun (E : Type) where
  ring : TraceRing E
  producer : RingProducer E := .idle
  consumer : RingConsumer E := .idle
  /-- The appends that returned true. -/
  accepted : List (RingItem E) := []
  /-- The batches, with the columns that were asked for. -/
  drained : List (Columns × Batch E) := []
  /-- For each append that returned false, the accepted entries that were not drained. -/
  refused : List Nat := []

/-- The next piece of one side.  A side that is between calls starts the call given. -/
inductive RingAction (E : Type) where
  | produce (item : RingItem E)
  | consume (maxCount : Nat) (want : Columns)

namespace RingRun
variable {E : Type} (s : RingRun E)

def drainedCount : Nat := (s.drained.map fun d => d.2.entries.length).sum

/-- A piece of `try_append`. -/
def produce (item : RingItem E) : Except Fault (RingRun E) :=
  match s.producer with
  | .idle =>
    .ok { s with
      producer := if s.ring.head - s.ring.cachedTail ≥ traceRingMask + 1 then .refresh item
        else .store item }
  | .refresh item =>
    if s.ring.tail < s.ring.cachedTail then .error .contract
    else
      let s := { s with ring := { s.ring with cachedTail := s.ring.tail } }
      if s.ring.head - s.ring.cachedTail ≥ traceRingMask + 1 then
        .ok { s with
          producer := .idle, refused := s.refused ++ [s.accepted.length - s.drainedCount] }
      else .ok { s with producer := .store item }
  | .store item => .ok { s with ring := s.ring.storeItem item, producer := .publish item }
  | .publish item =>
    if s.ring.head + 1 < 2 ^ 64 then
      .ok { s with
        ring := { s.ring with head := s.ring.head + 1 }
        producer := .idle
        accepted := s.accepted ++ [item] }
    else .error .contract

/-- A piece of `drain` or `try_pop_batch`. -/
def consume (maxCount : Nat) (want : Columns) : Except Fault (RingRun E) :=
  match s.consumer with
  | .idle =>
    if traceRingMask + 1 < maxCount then .error .contract
    else
      let available := wrap32 (s.ring.head - s.ring.consumerTail)
      let count := if maxCount < available then maxCount else available
      .ok (if count = 0 then s else { s with consumer := .copy want count })
  | .copy want count =>
    .ok { s with consumer := .publish want (s.ring.copyOut want count) count }
  | .publish want batch count =>
    let nextTail := s.ring.consumerTail + count
    if s.ring.consumerTail < wrap64 nextTail then
      .ok { s with
        ring := { s.ring with consumerTail := nextTail, tail := nextTail }
        consumer := .idle
        drained := s.drained ++ [(want, batch)] }
    else .error .contract

def step : RingAction E → Except Fault (RingRun E)
  | .produce item => s.produce item
  | .consume maxCount want => s.consume maxCount want

end RingRun

/-! ### The invariant -/

theorem traceRingMask_pow : PowMask traceRingMask := ⟨16, rfl⟩

theorem wrap32_and_mask (x i : Nat) :
    (wrap32 x + i) &&& traceRingMask = (x + i) &&& traceRingMask := by
  rw [and_powMask traceRingMask_pow, and_powMask traceRingMask_pow]
  simp only [wrap32, traceRingMask]
  omega

section
variable {E : Type}

/-- The four columns of a slot together. -/
def TraceRing.slot (r : TraceRing E) (i : Nat) : RingItem E :=
  ⟨r.entries i, r.metaStarts i, r.scopeHashes i, r.callsiteHashes i⟩

theorem TraceRing.slot_storeItem (r : TraceRing E) (item : RingItem E) :
    (r.storeItem item).slot = Function.update r.slot (r.head &&& traceRingMask) item := by
  have hslot : wrap32 r.head &&& traceRingMask = r.head &&& traceRingMask :=
    wrap32_and_mask r.head 0
  funext i
  by_cases hi : i = r.head &&& traceRingMask
  · simp [slot, storeItem, hslot, hi]
  · simp [slot, storeItem, hslot, hi]

/-- The batch that shows `items`. -/
def Batch.of (want : Columns) (items : List (RingItem E)) : Batch E where
  entries := items.map RingItem.entry
  metaStarts := if want.metaStarts then some (items.map RingItem.metaStart) else none
  scopeHashes := if want.scopeHashes then some (items.map RingItem.scopeHash) else none
  callsiteHashes := if want.callsiteHashes then some (items.map RingItem.callsiteHash) else none

end

variable {E : Type} [Inhabited E]

/-- The slots hold the accepted entries from `lo` up to `hi`. -/
def TraceRing.HoldsItems (r : TraceRing E) (items : List (RingItem E)) (lo hi : Nat) : Prop :=
  Ring.Holds traceRingMask r.slot (fun p => items.getD p default) lo hi

/-- What a piece of `try_append` may rely on. -/
def RingProducer.Ok (r : TraceRing E) (accepted : List (RingItem E)) : RingProducer E → Prop
  | .idle | .refresh _ => True
  | .store _ => r.head < r.tail + (traceRingMask + 1)
  | .publish item => r.head < r.tail + (traceRingMask + 1) ∧
      r.HoldsItems (accepted ++ [item]) r.tail (r.head + 1)

/-- What a piece of a drain may rely on. -/
def RingConsumer.Ok (r : TraceRing E) (accepted : List (RingItem E)) : RingConsumer E → Prop
  | .idle => True
  | .copy _ count => 0 < count ∧ r.tail + count ≤ r.head
  | .publish want batch count => 0 < count ∧ r.tail + count ≤ r.head ∧
      batch = Batch.of want ((accepted.drop r.tail).take count)

/-- What holds between any two pieces. -/
structure RingRun.Fifo (s : RingRun E) : Prop where
  head_eq : s.ring.head = s.accepted.length
  tail_eq : s.ring.consumerTail = s.ring.tail
  cached_le : s.ring.cachedTail ≤ s.ring.tail
  tail_le : s.ring.tail ≤ s.ring.head
  head_lt : s.ring.head < 2 ^ 64
  live_le : s.ring.head ≤ s.ring.tail + (traceRingMask + 1)
  holds : s.ring.HoldsItems s.accepted s.ring.tail s.ring.head
  producer : s.producer.Ok s.ring s.accepted
  consumer : s.consumer.Ok s.ring s.accepted
  shown : ∃ runs, Forall₂ (fun d items => d.2 = Batch.of d.1 items) s.drained runs ∧
    runs.flatten = s.accepted.take s.ring.tail
  count_eq : s.drainedCount = s.ring.tail
  refused : ∀ n ∈ s.refused, n = traceRingMask + 1

namespace RingRun
variable {s s' : RingRun E}

theorem Fifo.produce (h : s.Fifo) {item : RingItem E} (hstep : s.produce item = .ok s') :
    s'.Fifo := by
  have hhead := h.head_eq
  have htail := h.tail_le
  have hcac := h.cached_le
  have hlive := h.live_le
  have hprod := h.producer
  unfold RingRun.produce at hstep
  cases hphase : s.producer with
  | idle =>
    rw [hphase] at hstep
    cases hstep
    refine { h with producer := ?_ }
    split
    · trivial
    · exact (by omega : s.ring.head < s.ring.tail + (traceRingMask + 1))
  | refresh item =>
    simp only [hphase] at hstep
    split at hstep
    · cases hstep
    split at hstep
    · cases hstep
      refine { h with cached_le := le_rfl, producer := trivial, refused := ?_ }
      refine forall_mem_append.mpr ⟨h.refused, forall_mem_singleton.mpr ?_⟩
      change s.accepted.length - s.drainedCount = _
      rw [h.count_eq]
      omega
    · cases hstep
      exact { h with
        cached_le := le_rfl
        producer := (by omega : s.ring.head < s.ring.tail + (traceRingMask + 1)) }
  | store item =>
    rw [hphase] at hstep hprod
    cases hstep
    have hroom : s.ring.head < s.ring.tail + (traceRingMask + 1) := hprod
    have hhol := h.holds
    have hnew : (s.ring.storeItem item).HoldsItems (s.accepted ++ [item]) s.ring.tail
        (s.ring.head + 1) := by
      rw [TraceRing.HoldsItems, s.ring.slot_storeItem, hhead]
      rw [hhead] at hroom hhol
      exact Ring.Holds.push traceRingMask_pow hhol hroom
    have hold := (hnew.mono le_rfl (Nat.le_succ _)).congr (fun p _ hp =>
      getD_append _ _ _ _ (hhead ▸ hp))
    exact { h with holds := hold, producer := ⟨hroom, hnew⟩ }
  | publish item =>
    rw [hphase] at hstep hprod
    obtain ⟨hroom, hnew⟩ := hprod
    dsimp only at hstep
    split at hstep
    · rename_i hlt
      cases hstep
      obtain ⟨runs, hruns, hflat⟩ := h.shown
      refine { h with
        head_eq := ?_
        tail_le := Nat.le_succ_of_le htail
        head_lt := hlt
        live_le := hroom
        holds := hnew
        producer := trivial
        consumer := ?_
        shown := ⟨runs, hruns, ?_⟩ }
      · simp [hhead]
      · have hcon := h.consumer
        revert hcon
        cases s.consumer with
        | idle => exact id
        | copy want count => exact fun ⟨hpos, hle⟩ => ⟨hpos, Nat.le_succ_of_le hle⟩
        | publish want batch count =>
          rintro ⟨hpos, hle, hbat⟩
          have hdrop : (s.accepted ++ [item]).drop s.ring.tail =
              s.accepted.drop s.ring.tail ++ [item] :=
            drop_append_of_le_length (hhead ▸ htail)
          refine ⟨hpos, Nat.le_succ_of_le hle, hbat.trans (congrArg _ ?_)⟩
          rw [hdrop, take_append_of_le_length (by rw [length_drop]; omega)]
      · rw [hflat, take_append_of_le_length (hhead ▸ htail)]
    · cases hstep

theorem Fifo.copyOut_eq (h : s.Fifo) (want : Columns) {count : Nat}
    (hle : s.ring.tail + count ≤ s.ring.head) :
    s.ring.copyOut want count = Batch.of want ((s.accepted.drop s.ring.tail).take count) := by
  have hlive := h.live_le
  have hhol := h.holds
  rw [h.head_eq] at hhol
  have hcount : count ≤ traceRingMask + 1 := by omega
  have hread : ∀ {α : Type} (slots : Nat → α), Ring.read traceRingMask slots
      (wrap32 s.ring.consumerTail) count = Ring.read traceRingMask slots s.ring.tail count := by
    intro α slots
    rw [Ring.read_eq traceRingMask_pow _ _ hcount, Ring.read_eq traceRingMask_pow _ _ hcount,
      h.tail_eq]
    simp only [wrap32_and_mask]
  have hitems := hhol.read_eq traceRingMask_pow le_rfl (h.head_eq ▸ hle)
    (by rwa [Nat.add_sub_cancel_left])
  rw [Nat.add_sub_cancel_left] at hitems
  rw [← hitems]
  simp only [TraceRing.copyOut, Batch.of, hread, Ring.read_eq traceRingMask_pow _ _ hcount, map_map]
  rfl

theorem Fifo.consume (h : s.Fifo) {maxCount : Nat} {want : Columns}
    (hstep : s.consume maxCount want = .ok s') : s'.Fifo := by
  have hhead := h.head_eq
  have hlive := h.live_le
  have hcon := h.consumer
  unfold RingRun.consume at hstep
  cases hphase : s.consumer with
  | idle =>
    simp only [hphase] at hstep
    split at hstep
    · cases hstep
    have havail : wrap32 (s.ring.head - s.ring.consumerTail) = s.ring.head - s.ring.tail := by
      rw [h.tail_eq]
      exact wrap32_of_lt (by simp only [traceRingMask] at hlive; omega)
    rw [havail] at hstep
    have hle : (if maxCount < s.ring.head - s.ring.tail then maxCount
        else s.ring.head - s.ring.tail) ≤ s.ring.head - s.ring.tail := by
      split <;> omega
    generalize (if maxCount < s.ring.head - s.ring.tail then maxCount
      else s.ring.head - s.ring.tail) = count at hstep hle
    cases hstep
    split
    · exact h
    · exact { h with
        consumer := (by omega : 0 < count ∧ s.ring.tail + count ≤ s.ring.head) }
  | copy want count =>
    rw [hphase] at hstep hcon
    cases hstep
    obtain ⟨hpos, hle⟩ := hcon
    refine { h with consumer := ⟨hpos, hle, ?_⟩ }
    exact h.copyOut_eq want hle
  | publish want batch count =>
    rw [hphase] at hstep hcon
    obtain ⟨hpos, hle, rfl⟩ := hcon
    dsimp only at hstep
    split at hstep
    · cases hstep
      obtain ⟨runs, hruns, hflat⟩ := h.shown
      have hmove : s.ring.tail ≤ s.ring.tail + count := le_self_add
      have hlen : ((s.accepted.drop s.ring.tail).take count).length = count := by
        rw [length_take, length_drop]
        omega
      rw [h.tail_eq]
      refine { h with
        tail_eq := rfl
        cached_le := h.cached_le.trans hmove
        tail_le := hle
        live_le := by dsimp only; omega
        holds := h.holds.mono hmove le_rfl
        producer := ?_
        consumer := trivial
        shown := ⟨runs ++ [(s.accepted.drop s.ring.tail).take count],
          rel_append hruns (.cons rfl .nil), ?_⟩
        count_eq := ?_ }
      · have hprod := h.producer
        revert hprod
        cases s.producer with
        | idle | refresh => exact id
        | store item =>
          intro hroom
          exact hroom.trans_le (Nat.add_le_add_right hmove _)
        | publish item =>
          rintro ⟨hroom, hnew⟩
          exact ⟨hroom.trans_le (Nat.add_le_add_right hmove _), hnew.mono hmove le_rfl⟩
      · rw [flatten_append, hflat, take_add, flatten_singleton]
      · have hcount := h.count_eq
        simp only [drainedCount] at hcount ⊢
        rw [map_append, sum_append, hcount]
        simp only [map_singleton, sum_singleton, Batch.of, length_map, hlen]
    · cases hstep

theorem Fifo.step (h : s.Fifo) {a : RingAction E} (hstep : s.step a = .ok s') : s'.Fifo := by
  cases a with
  | produce item => exact h.produce hstep
  | consume maxCount want => exact h.consume hstep

def start : RingRun E := { ring := { entries := fun _ => default } }

theorem start_fifo : (start : RingRun E).Fifo where
  head_eq := rfl
  tail_eq := rfl
  cached_le := le_rfl
  tail_le := le_rfl
  head_lt := Nat.two_pow_pos 64
  live_le := zero_le
  holds := Ring.Holds.empty _ _ _ _
  producer := trivial
  consumer := trivial
  shown := ⟨[], .nil, rfl⟩
  count_eq := rfl
  refused := forall_mem_nil _

theorem Fifo.step_error (h : s.Fifo) {a : RingAction E} {e : Fault} (hstep : s.step a = .error e) :
    s.ring.head + 1 = 2 ^ 64 ∨
      ∃ maxCount want, a = .consume maxCount want ∧ traceRingMask + 1 < maxCount := by
  have hlt := h.head_lt
  cases a with
  | produce item =>
    simp only [RingRun.step, RingRun.produce] at hstep
    cases hphase : s.producer with
    | idle | store => simp [hphase] at hstep
    | refresh item =>
      simp only [hphase, if_neg h.cached_le.not_gt] at hstep
      split at hstep <;> cases hstep
    | publish item =>
      simp only [hphase] at hstep
      split at hstep
      · cases hstep
      · exact .inl (by omega)
  | consume maxCount want =>
    simp only [RingRun.step, RingRun.consume] at hstep
    have hcon := h.consumer
    cases hphase : s.consumer with
    | idle =>
      simp only [hphase] at hstep
      split at hstep
      · exact .inr ⟨maxCount, want, rfl, by assumption⟩
      · cases hstep
    | copy want count => simp [hphase] at hstep
    | publish want batch count =>
      rw [hphase] at hcon
      obtain ⟨hpos, hle, -⟩ := hcon
      have htail := h.tail_eq
      simp only [hphase, wrap64_of_lt (show s.ring.consumerTail + count < 2 ^ 64 by omega),
        if_pos (show s.ring.consumerTail < s.ring.consumerTail + count by omega)] at hstep
      cases hstep

/-- **The trace ring is a lossless bounded queue**, in every interleaving. -/
theorem traceRing_fifo {actions : List (RingAction E)}
    (hrun : actions.foldlM RingRun.step start = .ok s) :
    (∃ runs, Forall₂ (fun d items => d.2 = Batch.of d.1 items) s.drained runs ∧
      runs.flatten <+: s.accepted) ∧
    (∀ n ∈ s.refused, n = traceRingMask + 1) ∧
    (∀ item p, s.producer = .store item → p < s.accepted.length →
      p &&& traceRingMask = wrap32 s.ring.head &&& traceRingMask → p < s.drainedCount) ∧
    ∀ a e, s.step a = .error e → s.ring.head + 1 = 2 ^ 64 ∨
      ∃ maxCount want, a = .consume maxCount want ∧ traceRingMask + 1 < maxCount := by
  have h : s.Fifo := foldlM_inv Fifo start_fifo (fun _ _ _ _ hs hstep => hs.step hstep) hrun
  obtain ⟨runs, hruns, hflat⟩ := h.shown
  refine ⟨⟨runs, hruns, hflat ▸ take_prefix _ _⟩, h.refused, ?_, fun a e => h.step_error⟩
  intro item p hphase hp hslot
  have hroom : s.ring.head < s.ring.tail + (traceRingMask + 1) := by
    have hproducer := h.producer
    rwa [hphase] at hproducer
  rw [h.count_eq]
  by_contra hnot
  rw [← h.head_eq] at hp
  have hwrap : wrap32 s.ring.head &&& traceRingMask = s.ring.head &&& traceRingMask :=
    wrap32_and_mask s.ring.head 0
  exact Ring.slot_ne traceRingMask_pow hp (by omega) (hslot.trans hwrap)

/-- One entry is appended and drained, and a second append starts. -/
def handOver : List (RingAction Nat) :=
  [.produce ⟨7, some 3, 5, 9⟩, .produce default, .produce default, .consume 4 ⟨true, false, true⟩,
    .consume 4 {}, .consume 4 {}, .produce default]

theorem traceRing_fifo_handOver : ∃ s, handOver.foldlM RingRun.step start = .ok s ∧
      s.drained.map (fun d => (d.2.entries, d.2.scopeHashes)) = [([7], none)] ∧
      ∃ runs, Forall₂ (fun d items => d.2 = Batch.of d.1 items) s.drained runs ∧
        runs.flatten <+: s.accepted :=
  ⟨_, rfl, rfl, (@traceRing_fifo Nat _ _ handOver rfl).1⟩

end RingRun
end Crucible
