import Crucible.Types

/-! # The transaction log

Each published region is one transaction.  It is begun, committed with its region and
made the active one, and the transaction that it displaces is kept for a rollback.  A claim in
a full ring recycles the oldest slot, after it has passed over the active transaction and the
rollback target.  A transaction is named by the index of its slot.
-/
namespace Crucible
open Function

inductive TxStatus where
  | recording | closed | committed | active | superseded | rolledBack
deriving DecidableEq

structure Transaction where
  stepId : Nat := 0
  displacementOrder : Nat := 0
  contentHash : Nat := 0
  merkleRoot : Nat := 0
  region : Option Nat := none
  status : TxStatus := .recording
deriving DecidableEq

/-- `Monotonic<uint64_t>::bump`. -/
def bump64 (counter : Nat) : Except Fault Nat :=
  if counter = u64Max then .error .contract else .ok (counter + 1)

/-- `Monotonic<uint64_t>::advance`. -/
def advance64 (counter new : Nat) : Except Fault Nat :=
  if counter ≤ new then .ok new else .error .contract

/-- `TransactionLog`, with the storage, the cursor and the fill count of its ring. -/
structure TransactionLog where
  entries : Nat → Transaction := fun _ => {}
  cursor : Nat := 0
  count : Nat := 0
  active : Option Nat := none
  displacements : Nat := 0

namespace TransactionLog
variable (n : Nat) (log : TransactionLog)

/-! ### The ring -/

/-- `CyclicBuffer::recent`: the slot of an age below `n`. -/
def recent (age : Nat) : Nat := (log.cursor + n - 1 - age) % n

def nextSlot : Nat := log.cursor % n

/-- `CyclicBuffer::claim`. -/
def claim : TransactionLog :=
  { log with
    cursor := log.cursor + 1
    count := if log.count < n then log.count + 1 else log.count }

/-! ### The rollback target -/

def isNewerDisplacement (target : Option Nat) (slot : Nat) : Bool :=
  decide ((log.entries slot).status = .superseded) && match target with
    | none => true
    | some t =>
      decide ((log.entries slot).displacementOrder > (log.entries t).displacementOrder)

/-- The loop of `previous`. -/
def previousFrom : List Nat → Option Nat → Option Nat
  | [], target => target
  | slot :: slots, target =>
    if log.isNewerDisplacement target slot then
      if (log.entries slot).displacementOrder = log.displacements then some slot
      else previousFrom slots (some slot)
    else previousFrom slots target

def previous : Option Nat := log.previousFrom ((List.range log.count).map (log.recent n)) none

/-! ### The operations -/

/-- One pass of the loop of `begin_tx`.  A pass that does not claim ends the loop, and a
further pass would not claim either. -/
def skipKept (target : Option Nat) : TransactionLog :=
  let oldest := some (log.recent n (n - 1))
  if log.count = n ∧ (oldest = log.active ∨ oldest = target) then log.claim n else log

/-- `begin_tx`, with the slot of the new transaction. -/
def beginTx (stepId : Nat) : TransactionLog × Nat :=
  let target := log.previous n
  let log := (log.skipKept n target).skipKept n target
  let tx := log.nextSlot n
  ({ log.claim n with entries := update log.entries tx { stepId } }, tx)

/-- `commit`.  The region is not null. -/
def commit (tx region contentHash merkleRoot : Nat) : Except Fault (TransactionLog × Bool) :=
  if merkleRoot = 0 then .error .contract
  else
    let entry := log.entries tx
    if entry.status = .recording ∨ entry.status = .closed then
      let committed :=
        { entry with region := some region, contentHash, merkleRoot, status := .committed }
      .ok ({ log with entries := update log.entries tx committed }, true)
    else .ok (log, false)

/-- The first half of `activate`: the active transaction is displaced. -/
def displaceActive : Except Fault TransactionLog :=
  match log.active with
  | none => .ok log
  | some prev => do
    let displacements ← bump64 log.displacements
    let displacementOrder ← advance64 (log.entries prev).displacementOrder displacements
    let displaced := { log.entries prev with displacementOrder, status := .superseded }
    .ok { log with entries := update log.entries prev displaced, displacements }

def setStatus (tx : Nat) (status : TxStatus) : TransactionLog :=
  { log with entries := update log.entries tx { log.entries tx with status } }

/-- `activate`, with the transaction that it displaces. -/
def activate (tx : Nat) : Except Fault (TransactionLog × Option Nat) :=
  if (log.entries tx).status = .committed then do
    let displaced ← log.displaceActive
    .ok ({ displaced.setStatus tx .active with active := some tx }, log.active)
  else .ok (log, none)

def rollback : TransactionLog × Bool :=
  match log.previous n with
  | none => (log, false)
  | some prev =>
    let log := match log.active with
      | none => log
      | some tx => log.setStatus tx .rolledBack
    ({ log.setStatus prev .active with active := some prev }, true)

/-- `for_each_region`. -/
def regions : List Nat :=
  (List.range log.count).filterMap fun age => (log.entries (log.recent n age)).region

end TransactionLog

/-- A call on the log.  The caller names a transaction that `begin_tx` returned. -/
inductive TxOp where
  | begin (stepId : Nat)
  | commit (tx region contentHash merkleRoot : Nat)
  | activate (tx : Nat)
  | rollback
deriving DecidableEq

def TransactionLog.step (n : Nat) (log : TransactionLog) : TxOp → Except Fault TransactionLog
  | .begin stepId => .ok (log.beginTx n stepId).1
  | .commit tx region contentHash merkleRoot =>
    if tx < log.count then Prod.fst <$> log.commit tx region contentHash merkleRoot
    else .error .contract
  | .activate tx =>
    if tx < log.count then Prod.fst <$> log.activate tx else .error .contract
  | .rollback => .ok (log.rollback n).1

def runTransactions (n : Nat) (log : TransactionLog) (ops : List TxOp) :
    Except Fault TransactionLog :=
  ops.foldlM (TransactionLog.step n) log

end Crucible
