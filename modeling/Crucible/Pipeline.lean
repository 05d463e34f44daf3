import Crucible.DetectStage
import Crucible.MemoryPlan
import Crucible.MetaLog
import Crucible.RegionStore

/-! # The background pipeline

The foreground records ops into the trace ring and their metadata into the log.  Four
stages pass the ops on over FIFO channels: the drain stage pops batches, the detect
stage cuts work items and sends a commit marker after each batch, the build stage turns
each work item into a region, and the publish stage publishes or discards it and
releases its metadata.  An action is one step of the foreground or of a stage, and a
run is any sequence of actions.

A channel holds any number of messages, since a stage that waits for room only delays
its next step.  A publish takes the marks that the region callback sets as a parameter.
The counters of the pipeline are 64-bit counts that do not wrap.
-/
namespace Crucible

/-- `TraceRing::CAPACITY` and `BATCH_SIZE`. -/
def traceRingCapacity : Nat := 2 ^ 16
def batchSize : Nat := 4096

/-- `BgBuildWork`: a work item under the number of its region, or a commit marker. -/
inductive PipelineWork where
  | build (id : Nat) (work : BuildWork)
  | commit (count : Nat)
deriving DecidableEq

/-- `BgGraphPublish`. -/
inductive PublishMessage where
  | region (id : Nat) (parts : BuiltTrace) (epoch : Nat)
  | commit (count : Nat)
  | release (metaEnd : Nat)
deriving DecidableEq

/-- What became of a region, with its epoch and the reset epoch at its check. -/
inductive Outcome where
  | published (epoch resetEpoch : Nat)
  | stale (epoch resetEpoch : Nat)
  | storeFull (epoch resetEpoch : Nat)
  | overflow
deriving DecidableEq

/-- A run of the log as the build stage copied it, with the bounds of the log then. -/
structure CopiedRun where
  first : Nat
  last : Nat
  tail : Nat
  head : Nat
  records : List TensorMeta
deriving DecidableEq

/-- What an observer of a run writes down.  No stage reads it. -/
structure Ledger where
  /-- The records that the foreground appended to the log. -/
  appended : List TensorMeta := []
  /-- The batches that the drain stage popped. -/
  drained : List (List RecordedOp) := []
  /-- The batch at which each region was cut, by region number. -/
  cuts : List Nat := []
  /-- The commit markers that the detect stage sent. -/
  marked : Nat := 0
  copies : List CopiedRun := []
  /-- The values that `release_meta_log` was called with. -/
  released : List Nat := []
  settled : List (Nat × Outcome) := []
  /-- The commit markers that the publish stage handled. -/
  committed : Nat := 0

/-- The state of the foreground's recording, the four stages and their channels. -/
structure Pipeline where
  owner : PlanOwner := {}
  log : MetaLog := {}
  ring : List RecordedOp := []
  resetRequested : Bool := false
  batches : List (List RecordedOp) := []
  /-- The batch of the detect stage: the ops left, and its count. -/
  batch : Option (List RecordedOp × Nat) := none
  detect : DetectStage := {}
  works : List PipelineWork := []
  building : Option PipelineWork := none
  scratch : Scratch := {}
  publishes : List PublishMessage := []
  /-- The region that passed the check of its epoch, and is to be published. -/
  checked : Option (Nat × BuiltTrace × Nat × Nat) := none
  store : RegionStore (BuiltTrace × Option MemoryPlan) := {}
  totalProcessed : Nat := 0
  ledger : Ledger := {}

namespace Pipeline
variable (p : Pipeline)

/-! ### The foreground -/

/-- `Vigil::record_op`.  An op whose metadata found no room is recorded without an
index, and an op that finds the ring full is lost with its metadata in the log. -/
def recordOp (entry : RingEntry) (metas : List TensorMeta) (scopeHash callsiteHash : Nat) :
    Except Fault Pipeline := do
  let (log, metaIndex) ← p.log.tryAppend metas
  let op := { entry, metaIndex, scopeHash, callsiteHash }
  let appended := if metaIndex.isSome then p.ledger.appended ++ metas else p.ledger.appended
  .ok { p with
    log
    ring := if p.ring.length < traceRingCapacity then p.ring ++ [op] else p.ring
    ledger := { p.ledger with appended } }

/-! ### The drain stage -/

/-- One round of `DrainTraceRingFn`.  The count is what `try_pop_batch` found. -/
def drain (count : Nat) : Pipeline :=
  if 0 < count ∧ count ≤ p.ring.length ∧ count ≤ batchSize then
    { p with
      ring := p.ring.drop count
      batches := p.batches ++ [p.ring.take count]
      ledger := { p.ledger with drained := p.ledger.drained ++ [p.ring.take count] } }
  else p

/-! ### The detect stage -/

/-- `reset_requested.check_and_run(do_reset)`. -/
def checkReset : Except Fault Pipeline :=
  if p.resetRequested then do
    let detect ← p.detect.doReset
    .ok { p with detect, resetRequested := false }
  else .ok p

def takeBatch : Except Fault Pipeline :=
  match p.batch, p.batches with
  | none, ops :: batches => ({ p with batches, batch := some (ops, ops.length) }).checkReset
  | _, _ => .ok p

/-- The work item that an answer of the detect stage sends on. -/
def sendWork : Option (Nat × Option BuildWork) → Pipeline
  | some (_, some work) =>
    { p with
      works := p.works ++ [.build p.ledger.cuts.length work]
      ledger := { p.ledger with cuts := p.ledger.cuts ++ [p.ledger.marked] } }
  | _ => p

/-- One op of the loop of `DetectIterationFn`. -/
def detectNext : Except Fault Pipeline :=
  match p.batch with
  | some (op :: rest, count) => do
    let p ← p.checkReset
    let (detect, answer) ← p.detect.detectOp op
    .ok (({ p with detect, batch := some (rest, count) }).sendWork answer)
  | _ => .ok p

/-- The commit marker after the last op of a batch. -/
def sendCommit : Pipeline :=
  match p.batch with
  | some ([], count) =>
    { p with
      works := p.works ++ [.commit count]
      batch := none
      ledger := { p.ledger with marked := p.ledger.marked + 1 } }
  | _ => p

/-! ### The build stage -/

def takeWork : Pipeline :=
  match p.building, p.works with
  | none, work :: works => { p with works, building := some work }
  | _, _ => p

/-- The copy that a build of `ops` makes. -/
def copiedRun (log : MetaLog) (ops : List RecordedOp) : List CopiedRun :=
  match scanTrace ops with
  | .ok { firstMeta := some first, maxMetaEnd := last, .. } =>
    [{ first, last, tail := log.tail, head := log.head, records := log.copyRun first last }]
  | _ => []

/-- The work of `BuildTraceFn` on the item that it took. -/
def buildNext : Except Fault Pipeline :=
  match p.building with
  | none => .ok p
  | some (.commit count) =>
    .ok { p with building := none, publishes := p.publishes ++ [.commit count] }
  | some (.build id work) =>
    let copies := p.ledger.copies ++ copiedRun p.log work.ops
    match buildTraceFrom p.scratch p.log.record work.ops with
    | .fatal => .error .contract
    | .overflow metaEnd =>
      .ok { p with
        building := none
        publishes := if metaEnd > 0 then p.publishes ++ [.release metaEnd] else p.publishes
        ledger := { p.ledger with settled := p.ledger.settled ++ [(id, .overflow)] } }
    | .built scratch parts =>
      .ok { p with
        building := none
        scratch
        publishes := p.publishes ++ [.region id parts work.epoch]
        ledger := { p.ledger with copies } }

/-! ### The publish stage -/

def releaseMetaLog (metaEnd : Nat) : Except Fault Pipeline := do
  let log ← p.log.release metaEnd
  .ok { p with log, ledger := { p.ledger with released := p.ledger.released ++ [metaEnd] } }

def settle (id : Nat) (outcome : Outcome) : Pipeline :=
  { p with ledger := { p.ledger with settled := p.ledger.settled ++ [(id, outcome)] } }

/-- `MakeRegionFn` up to the check of the epoch. -/
def takePublish : Except Fault Pipeline :=
  match p.checked, p.publishes with
  | none, .commit count :: publishes =>
    .ok { p with
      publishes
      totalProcessed := p.totalProcessed + count
      ledger := { p.ledger with committed := p.ledger.committed + 1 } }
  | none, .release metaEnd :: publishes => ({ p with publishes }).releaseMetaLog metaEnd
  | none, .region id parts epoch :: publishes =>
    if epoch ≠ p.detect.epoch then
      (({ p with publishes }).settle id (.stale epoch p.detect.epoch)).releaseMetaLog
        parts.maxMetaEnd
    else .ok { p with publishes, checked := some (id, parts, epoch, p.detect.epoch) }
  | _, _ => .ok p

def planRegion (parts : BuiltTrace) : Except Fault (Option MemoryPlan) :=
  if parts.slots = [] then .ok none
  else
    match computeMemoryPlan p.owner parts.slots with
    | some plan => .ok (some plan)
    | none => .error .contract

/-- `publish_region`.  The region callback leaves `marks`. -/
def publishRegion (marks : RegionMarks) : Except Fault Pipeline :=
  match p.checked with
  | none => .ok p
  | some (id, parts, epoch, resetEpoch) =>
    let p := { p with checked := none }
    match p.store.freeIndex with
    | none =>
      let store := { p.store with droppedFull := p.store.droppedFull + 1 }
      (({ p with store }).settle id (.storeFull epoch resetEpoch)).releaseMetaLog parts.maxMetaEnd
    | some index => do
      let plan ← p.planRegion parts
      let p ← (p.settle id (.published epoch resetEpoch)).releaseMetaLog parts.maxMetaEnd
      let placed := p.store.place index id (parts, plan)
      .ok { p with store := ({ placed with marks }).sweepRegions }

end Pipeline

/-! ### Runs -/

inductive PipelineAction where
  | record (entry : RingEntry) (metas : List TensorMeta) (scopeHash callsiteHash : Nat)
  | requestReset
  | drain (count : Nat)
  | takeBatch
  | detect
  | commit
  | takeWork
  | build
  | takePublish
  | publish (marks : RegionMarks)
deriving DecidableEq

def Pipeline.step (p : Pipeline) : PipelineAction → Except Fault Pipeline
  | .record entry metas scopeHash callsiteHash => p.recordOp entry metas scopeHash callsiteHash
  | .requestReset => .ok { p with resetRequested := true }
  | .drain count => .ok (p.drain count)
  | .takeBatch => p.takeBatch
  | .detect => p.detectNext
  | .commit => .ok p.sendCommit
  | .takeWork => .ok p.takeWork
  | .build => p.buildNext
  | .takePublish => p.takePublish
  | .publish marks => p.publishRegion marks

def runPipeline (p : Pipeline) (actions : List PipelineAction) : Except Fault Pipeline :=
  actions.foldlM Pipeline.step p

/-- The caller of `record_op` gives one record for each tensor of the op, or none. -/
def PipelineAction.Promised : PipelineAction → Prop
  | .record entry metas _ _ => metas = [] ∨ metas.length = entry.numInputs + entry.numOutputs
  | _ => True

instance : DecidablePred PipelineAction.Promised
  | .record entry metas _ _ =>
    inferInstanceAs (Decidable (metas = [] ∨ metas.length = entry.numInputs + entry.numOutputs))
  | .requestReset | .drain _ | .takeBatch | .detect | .commit | .takeWork | .build | .takePublish
  | .publish _ => inferInstanceAs (Decidable True)

end Crucible
