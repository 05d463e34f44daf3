import Crucible.Mixing
import Crucible.RingBuffer

/-! # The iteration detector

`IterationDetector` finds iteration boundaries in a stream of op keys.  It keeps the
keys of its history in a ring, with prefix fingerprints, and an open-addressing table
from the fingerprint of each window of `detectorK` keys to its newest start.  A period is
accepted when the history ends with a square of it.  While a period holds, each boundary is
checked against the iteration before it.

Absolute indexes of ops are 64-bit counts that do not wrap.  A contract that fails
and a probe loop that never ends are the two faults.
-/
namespace Crucible
open Function

/-! ### Words -/

def sub64 (a b : Nat) : Nat := wrap64 (a + 2 ^ 64 - wrap64 b)

/-! ### Constants and state -/

/-- `K`, `REFUTED_CAPACITY`, `HISTORY_MIN_CAPACITY`, `HISTORY_MAX_CAPACITY`, `MAX_PERIOD`,
`MAX_CANDIDATES` and `BREAKS_TO_REFUTE`. -/
def detectorK : Nat := 5
def refutedCapacity : Nat := 32
def historyMinCapacity : Nat := 2 ^ 12
def historyMaxCapacity : Nat := 2 ^ 19
def maxPeriod : Nat := (historyMaxCapacity - detectorK - 1) / 2
def maxCandidates : Nat := 256
def breaksToRefute : Nat := 2

/-- `POLY_BASE` and `SUM_SALT`. -/
def polyBase : Nat := 0x9E3779B97F4A7C15
def sumSalt : Nat := 0xD6E8FEB86659FD93

structure RefutedPeriod where
  period : Nat := 0
  bodySum : Nat := 0
  breaks : Nat := 0
  brokeSinceRestart : Bool := false
deriving DecidableEq, Inhabited

structure TableSlot where
  startPlusOne : Nat := 0
  fingerprint : Nat := 0
deriving DecidableEq, Inhabited

structure IterationDetector where
  confirmed : Bool := false
  phaseIsUnique : Bool := false
  signatureLen : Nat := 0
  opsSinceBoundary : Nat := 0
  boundariesDetected : Nat := 0
  lastCompletedLen : Nat := 0
  period : Nat := 0
  periodBodySum : Nat := 0
  periodsReported : Nat := 0
  currentPeriodReported : Bool := false
  pos : Nat := 0
  nextBoundary : Nat := 0
  base : Nat := 0
  refuted : Nat → RefutedPeriod := fun _ => {}
  refutedCount : Nat := 0
  refutedNext : Nat := 0
  keys : Nat → Nat := fun _ => 0
  prefixPolys : Nat → Nat := fun _ => 0
  prefixSums : Nat → Nat := fun _ => 0
  earlierLinks : Nat → Nat := fun _ => 0
  historyMask : Nat := 0
  table : Nat → TableSlot := fun _ => {}
  tableMask : Nat := 0
  tableUsed : Nat := 0

/-- `power_of_base_`: square and multiply over the bits of the exponent. -/
def powerLoop : Nat → Nat → Nat → Nat → Nat
  | 0, result, _, _ => result
  | bits + 1, result, factor, exponent =>
    if exponent = 0 then result
    else powerLoop bits (if exponent % 2 = 1 then wrap64 (result * factor) else result)
      (wrap64 (factor * factor)) (exponent / 2)

def powerOfBase (exponent : Nat) : Nat := powerLoop 64 1 polyBase exponent

def keyOf (schemaHash shapeHash : Nat) : Nat :=
  fmix64 (schemaHash ^^^ fmix64 (wrap64 (shapeHash + polyBase)))

/-- `Monotonic<uint32_t>::bump`. -/
def bump32 (counter : Nat) : Except Fault Nat :=
  if counter = u32Max then .error .contract else .ok (counter + 1)

namespace IterationDetector
variable (d : IterationDetector)

def oldestClaimable : Nat :=
  let newestStart := if d.pos > detectorK then d.pos - detectorK else 0
  let searchFloor := if newestStart > d.base then d.base + (newestStart - d.base) / 2 else d.base
  if d.period = 0 then searchFloor
  else
    let nextIteration := d.nextBoundary - d.period
    if nextIteration < searchFloor then nextIteration else searchFloor

def isRefuted (period bodySum : Nat) : Bool :=
  match (List.range d.refutedCount).find? fun i =>
      (d.refuted i).period = period ∧ (d.refuted i).bodySum = bodySum with
  | some i => breaksToRefute ≤ (d.refuted i).breaks
  | none => false

def heldFrom : Nat := if d.base = 0 then 0 else d.base - 1

/-- `prefix_poly_before_` and `prefix_sum_before_`. -/
def prefixPolyBefore (index : Nat) : Nat :=
  if index = 0 then 0 else d.prefixPolys ((index - 1) &&& d.historyMask)

def prefixSumBefore (index : Nat) : Nat :=
  if index = 0 then 0 else d.prefixSums ((index - 1) &&& d.historyMask)

/-- The fingerprint of `length` keys from `start` on. -/
def polyBetween (start length : Nat) : Nat :=
  sub64 (d.prefixPolyBefore (start + length))
    (wrap64 (d.prefixPolyBefore start * powerOfBase length))

def windowFingerprint (start : Nat) : Nat := d.polyBetween start detectorK

def windowSum (start stop : Nat) : Nat := sub64 (d.prefixSumBefore stop) (d.prefixSumBefore start)

def homeSlot (fingerprint : Nat) : Nat := fmix64 fingerprint &&& d.tableMask

/-! ### The window table -/

/-- The probe loop: the first slot that is empty or has the fingerprint. -/
def findSlot (fingerprint : Nat) : Nat → Nat → Except Fault Nat
  | 0, _ => .error .endless
  | n + 1, index =>
    if (d.table index).startPlusOne = 0 ∨ (d.table index).fingerprint = fingerprint then .ok index
    else findSlot fingerprint n ((index + 1) &&& d.tableMask)

/-- The probe loop from the home slot.  A loop over the whole table comes back to its
start and never ends. -/
def probe (fingerprint : Nat) : Except Fault Nat :=
  d.findSlot fingerprint (d.tableMask + 1) (d.homeSlot fingerprint)

def tableExchange (fingerprint start : Nat) : Except Fault (IterationDetector × Nat) := do
  let index ← d.probe fingerprint
  let earlier := (d.table index).startPlusOne
  let table := update d.table index ⟨start + 1, fingerprint⟩
  if earlier = 0 then .ok ({ d with table, tableUsed := d.tableUsed + 1 }, 0)
  else .ok ({ d with table }, earlier)

/-- The loop of `table_remove_newest_` that moves the slots after the hole back. -/
def closeHole : Nat → (Nat → TableSlot) → Nat → Nat → Except Fault (Nat → TableSlot)
  | 0, _, _, _ => .error .endless
  | n + 1, table, hole, next =>
    let next := (next + 1) &&& d.tableMask
    if (table next).startPlusOne = 0 then .ok (update table hole {})
    else
      let home := d.homeSlot (table next).fingerprint
      let homeAfterHole :=
        sub64 (sub64 home hole) 1 &&& d.tableMask < sub64 next hole &&& d.tableMask
      if homeAfterHole then closeHole n table hole next
      else closeHole n (update table hole (table next)) next next

def tableRemoveNewest (fingerprint start : Nat) : Except Fault IterationDetector := do
  let hole ← d.probe fingerprint
  if (d.table hole).startPlusOne ≠ start + 1 then .ok d
  else
    let table ← d.closeHole (d.tableMask + 1) d.table hole hole
    .ok { d with table, tableUsed := d.tableUsed - 1 }

def linkWindow (start : Nat) : Except Fault (IterationDetector × Nat) := do
  let (d, earlierLink) ← d.tableExchange (d.windowFingerprint start) start
  let slot := start &&& d.historyMask
  .ok ({ d with earlierLinks := update d.earlierLinks slot earlierLink }, earlierLink)

/-- `rebuild_table_`: an empty table of `size` slots, and the windows that start in
`[base, endStart)`, in order. -/
def rebuildTable (size endStart : Nat) : Except Fault IterationDetector :=
  (List.range (endStart - d.base)).foldlM (fun d i => do
      let (d, _) ← d.linkWindow (d.base + i)
      .ok d)
    { d with table := fun _ => {}, tableMask := size - 1, tableUsed := 0 }

/-! ### The history -/

/-- The loop of `forget_before_`, which runs while the detector searches. -/
def forgetWindows (newBase : Nat) : Except Fault IterationDetector :=
  if d.period = 0 then
    (List.range (newBase - d.base)).foldlM (fun d i =>
      if d.base + i + detectorK ≤ d.pos then
        d.tableRemoveNewest (d.windowFingerprint (d.base + i)) (d.base + i)
      else .ok d) d
  else .ok d

def forgetBefore (newBase : Nat) : Except Fault IterationDetector := do
  let d ← d.forgetWindows newBase
  .ok { d with base := newBase }

def growHistory (newCapacity : Nat) : Except Fault IterationDetector :=
  let newMask := newCapacity - 1
  let moved := fun slots => Ring.copy d.historyMask newMask slots 0 d.heldFrom d.pos
  let grown :=
    { d with
      keys := moved d.keys
      prefixPolys := moved d.prefixPolys
      prefixSums := moved d.prefixSums
      earlierLinks := moved d.earlierLinks
      historyMask := newMask }
  if d.period = 0 then
    grown.rebuildTable (newCapacity * 2)
      (if d.pos + 1 > detectorK then d.pos + 1 - detectorK else 0)
  else .ok grown

def makeRoom : Except Fault IterationDetector :=
  if d.historyMask = 0 then d.growHistory historyMinCapacity
  else
    let capacity := d.historyMask + 1
    if d.pos + 1 - d.heldFrom ≤ capacity then .ok d
    else if capacity < historyMaxCapacity then d.growHistory (capacity * 2)
    else d.forgetBefore (d.pos + 2 - capacity)

def append (key : Nat) : Except Fault IterationDetector := do
  let d ← d.makeRoom
  let slot := d.pos &&& d.historyMask
  .ok { d with
    keys := update d.keys slot key
    prefixPolys := update d.prefixPolys slot
      (wrap64 (d.prefixPolyBefore d.pos * polyBase + key))
    prefixSums := update d.prefixSums slot
      (wrap64 (d.prefixSumBefore d.pos + fmix64 (key ^^^ sumSalt)))
    earlierLinks := update d.earlierLinks slot 0 }

def restart : Except Fault IterationDetector :=
  let d :=
    { d with
      confirmed := false
      phaseIsUnique := false
      opsSinceBoundary := 0
      signatureLen := 0
      boundariesDetected := 0
      lastCompletedLen := 0
      period := 0
      periodBodySum := 0
      periodsReported := 0
      currentPeriodReported := false
      pos := 0
      nextBoundary := 0
      base := 0 }
  if d.tableMask ≠ 0 then d.rebuildTable (d.tableMask + 1) 0 else .ok d

/-! ### Refuted periods -/

/-- `break_`. -/
def breakPeriod (period bodySum breaks : Nat) : IterationDetector :=
  match (List.range d.refutedCount).find? fun i =>
      (d.refuted i).period = period ∧ (d.refuted i).bodySum = bodySum with
  | some i =>
    let struck := { d.refuted i with breaks := min breaksToRefute ((d.refuted i).breaks + breaks) }
    { d with refuted := update d.refuted i struck }
  | none =>
    let entry : RefutedPeriod := { period, bodySum, breaks := min breaksToRefute breaks }
    { d with
      refuted := update d.refuted d.refutedNext entry
      refutedNext := (d.refutedNext + 1) % refutedCapacity
      refutedCount :=
        if d.refutedCount < refutedCapacity then d.refutedCount + 1 else d.refutedCount }

def markBrokeSinceRestart (period bodySum : Nat) : IterationDetector :=
  { d with refuted := fun i =>
      if i < d.refutedCount ∧ (d.refuted i).period = period ∧ (d.refuted i).bodySum = bodySum then
        { d.refuted i with brokeSinceRestart := true }
      else d.refuted i }

def reset : Except Fault IterationDetector := do
  let d ← d.restart
  .ok { d with refutedCount := 0, refutedNext := 0, refuted := fun _ => {} }

def restartAfterDivergence : Except Fault IterationDetector :=
  let divergedAtThisPeriod := d.period ≠ 0 ∧ d.currentPeriodReported ∧ d.periodsReported = 1
  let d :=
    if divergedAtThisPeriod ∧ d.phaseIsUnique then
      d.breakPeriod d.period d.periodBodySum breaksToRefute
    else d
  let d :=
    { d with refuted := fun i =>
        if i < d.refutedCount then
          { d.refuted i with
            breaks :=
              if (d.refuted i).brokeSinceRestart then breaksToRefute else (d.refuted i).breaks
            brokeSinceRestart := false }
        else d.refuted i }
  d.restart

/-! ### Search and verification -/

def windowsEqual (left right length : Nat) : Bool :=
  d.polyBetween left length = d.polyBetween right length ∧ ∀ offset, offset < length →
      d.keys ((left + offset) &&& d.historyMask) = d.keys ((right + offset) &&& d.historyMask)

def isSquare (start period : Nat) : Bool :=
  d.windowsEqual (start - 2 * period) (start - period) period

/-- The loop of `search_`: the period that it accepts, with its body fingerprint. -/
def searchLoop (start : Nat) : Nat → Nat → Option (Nat × Nat)
  | 0, _ => none
  | tests + 1, link =>
    if link = 0 then none
    else
      let earlier := link - 1
      if earlier < d.base then none
      else
        let period := start - earlier
        if start - d.base < 2 * period then none
        else
          let bodySum := d.windowSum (start - period) start
          if detectorK ≤ period ∧ d.isSquare start period ∧
              !d.isRefuted (wrap32 period) bodySum then
            some (wrap32 period, bodySum)
          else searchLoop start tests (d.earlierLinks (earlier &&& d.historyMask))

/-- The loop of `accept_` that counts the copies of a window along its links. -/
def countCopies (length windowStart : Nat) : Nat → Nat → Nat → Except Fault Nat
  | 0, _, _ => .error .endless
  | n + 1, link, copies =>
    if link ≠ 0 ∧ link - 1 + length > windowStart then
      countCopies length windowStart n (d.earlierLinks ((link - 1) &&& d.historyMask)) (copies + 1)
    else .ok copies

/-- One phase of the loop of `accept_`: the best phase so far with its count. -/
def bestPhaseStep (length bodyBegin : Nat) (best : Nat × Nat) (phase : Nat) :
    Except Fault (Nat × Nat) := do
  let windowStart := bodyBegin + phase
  let link := d.earlierLinks (windowStart &&& d.historyMask)
  if link ≠ 0 ∧ bodyBegin ≤ link - 1 then .ok best
  else
    let copies ← d.countCopies length windowStart (length + 2) link 1
    if copies < best.2 then .ok (phase, copies) else .ok best

/-- The phase that `accept_` picks, with the copies of its window. -/
def bestPhase (length bodyBegin : Nat) : Except Fault (Nat × Nat) :=
  (List.range length).foldlM (d.bestPhaseStep length bodyBegin) (0, u64Max)

def trim (newBase : Nat) : Except Fault IterationDetector :=
  if newBase ≤ d.base then .ok d else d.forgetBefore newBase

def fire : Except Fault (IterationDetector × Bool) := do
  let boundariesDetected ← bump32 d.boundariesDetected
  let boundary := d.nextBoundary
  let fired :=
    { d with
      periodsReported :=
        if d.currentPeriodReported then d.periodsReported else wrap32 (d.periodsReported + 1)
      currentPeriodReported := true
      lastCompletedLen := d.period
      opsSinceBoundary := detectorK
      boundariesDetected
      nextBoundary := boundary + d.period }
  let trimmed ← fired.trim (boundary - d.period)
  .ok (trimmed, true)

/-- `accept_`.  The mint of the period checks its range. -/
def accept (start length bodySum : Nat) : Except Fault (IterationDetector × Bool) := do
  if length < detectorK ∨ maxPeriod < length then .error .contract
  else
    let (phase, count) ← d.bestPhase length (start - length)
    let d :=
      { d with
        period := length
        periodBodySum := bodySum
        currentPeriodReported := false
        phaseIsUnique := count = 1
        confirmed := true
        nextBoundary := start + phase }
    if phase = 0 then d.fire else .ok (d, false)

def search (start earlierLink : Nat) : Except Fault (IterationDetector × Bool) :=
  match d.searchLoop start maxCandidates earlierLink with
  | some (length, bodySum) => d.accept start length bodySum
  | none => .ok (d, false)

def verifyBoundary : Except Fault (IterationDetector × Bool) := do
  let boundary := d.nextBoundary
  if d.isSquare boundary d.period ∧ d.windowsEqual (boundary - d.period) boundary detectorK then
    d.fire
  else
    let broken := d.breakPeriod d.period d.periodBodySum 1
    let broken :=
      if d.currentPeriodReported then broken.markBrokeSinceRestart d.period d.periodBodySum
      else broken
    let d ← ({ broken with period := 0, confirmed := false, phaseIsUnique := false }).rebuildTable
      ((d.historyMask + 1) * 2) (d.pos + 1 - detectorK)
    .ok (d, false)

/-- The first half of `check`: the op is counted and its key is stored. -/
def receive (schemaHash shapeHash : Nat) : Except Fault IterationDetector := do
  let opsSinceBoundary ← bump32 d.opsSinceBoundary
  let d ← ({ d with opsSinceBoundary }).append (keyOf schemaHash shapeHash)
  .ok { d with
    pos := d.pos + 1
    signatureLen := if d.signatureLen < detectorK then d.signatureLen + 1 else d.signatureLen }

/-- `check`: whether the op just received completes an iteration. -/
def check (schemaHash shapeHash : Nat) : Except Fault (IterationDetector × Bool) := do
  let d ← d.receive schemaHash shapeHash
  if d.signatureLen < detectorK then .ok (d, false)
  else if d.period ≠ 0 then
    if d.pos = d.nextBoundary + detectorK then d.verifyBoundary else .ok (d, false)
  else
    let start := d.pos - detectorK
    let (d, earlierLink) ← d.linkWindow start
    d.search start earlierLink

end IterationDetector
end Crucible
