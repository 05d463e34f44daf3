import Crucible.Blocks
import Crucible.CountingSort
import Crucible.Types

/-! # The memory planner

`compute_memory_plan` gives every internal slot of a region an offset in one
pool.  It sweeps the ops in order.  At each op a born slot first tries to take the block of
a slot that dies there (best fit, over the first `maxPerOp` of each), then the
blocks of the other dying slots go to the free list, and the other born slots
take the first block of the list that fits or extend the pool.

The sweep runs in the word arithmetic `wrap`: the code's is `wrap64`, and `wrap := id` is
what the code computes as long as no address leaves the word.
-/
namespace Crucible
open CountingSort

def alignment : Nat := 256

/-- `MAX_FREE`, the capacity of the free list. -/
def maxFree : Nat := 4096

/-- `MAX_PER_OP`, how many births and deaths of one op take part in the direct match. -/
def maxPerOp : Nat := 64

def maxDeathOp : Nat := u32Max - 3

structure MemoryPlan where
  slots : List TensorSlot
  poolBytes : Nat
  numSlots : Nat
  numExternal : Nat
  deviceType : DeviceType
  deviceIdx : Int
  deviceCapability : Nat
  rank : Int
  worldSize : Int
deriving DecidableEq

/-- The members of the background thread that the planner copies into the plan. -/
structure PlanOwner where
  rank : Int := -1
  worldSize : Int := 0
  deviceCapability : Nat := 0
deriving DecidableEq

/-- What the first pass over the slots accumulates. -/
structure PlanScan where
  numExternal : Nat := 0
  deviceType : DeviceType := .cpu
  deviceIdx : Int := -1
  maxOp : Nat := 0
deriving DecidableEq

def TensorSlot.LifetimeOk (slot : TensorSlot) : Prop :=
  slot.birthOp ≤ slot.deathOp ∧ slot.deathOp ≤ maxDeathOp

instance (slot : TensorSlot) : Decidable slot.LifetimeOk :=
  inferInstanceAs (Decidable (_ ∧ _))

/-- One slot of the first pass.  A failed fatal check is `none`. -/
def scanSlot (acc : PlanScan) (slot : TensorSlot) : Option PlanScan :=
  if slot.isExternal then
    some { acc with numExternal := acc.numExternal + 1 }
  else if slot.LifetimeOk then
    let named := acc.deviceType = .cpu ∧ slot.deviceType ≠ .cpu
    some { acc with
      deviceType := if named then slot.deviceType else acc.deviceType
      deviceIdx := if named then slot.deviceIdx else acc.deviceIdx
      maxOp := if slot.deathOp + 1 > acc.maxOp then slot.deathOp + 1 else acc.maxOp }
  else none

variable (wrap size : Nat → Nat) (slots : List TensorSlot)

def slotAt (s : Nat) : TensorSlot := slots.getD s default

/-- `(nbytes + ALIGNMENT - 1) & ~(ALIGNMENT - 1)` in the arithmetic `wrap`. -/
def alignedSize (wrap : Nat → Nat) (nbytes : Nat) : Nat :=
  wrap (nbytes + alignment - 1) / alignment * alignment

def birthKey (s : Nat) : Option Nat :=
  if (slotAt slots s).isExternal then none else some (slotAt slots s).birthOp

/-- The bucket of a slot in the death arrays, `free_at`, when the sweep reaches it. -/
def deathKey (numOps : Nat) (s : Nat) : Option Nat :=
  if (slotAt slots s).isExternal then none
  else if (slotAt slots s).deathOp + 1 < numOps then some ((slotAt slots s).deathOp + 1)
  else none

/-- `born_slots[birth_off[op] .. birth_off[op + 1])`. -/
def bornAt (op : Nat) : List Nat :=
  let items := List.range slots.length
  let off := offsets (counts (birthKey slots) items)
  slice off (scatter (birthKey slots) off (fun _ => 0) items).out op

/-- `dead_slots[death_off[op] .. death_off[op + 1])`. -/
def dyingAt (numOps op : Nat) : List Nat :=
  let key := deathKey slots numOps
  let items := List.range slots.length
  let off := offsets (counts key items)
  slice off (scatter key off (fun _ => 0) items).out op

/-- The state of the sweep: the offset column of the slot array, the free list
and the running pool end.  The sweep writes no other field of a slot. -/
structure Sweep where
  offset : Nat → Nat
  freeList : List Block
  poolEnd : Nat

namespace Sweep

/-- `slots[s].offset_bytes = offset`. -/
def setOffset (st : Sweep) (s offset : Nat) : Sweep :=
  { st with offset := Function.update st.offset s offset }

/-- `free_block`.  A full list drops the block. -/
def freeBlock (st : Sweep) (b : Block) : Sweep :=
  if st.freeList.length < maxFree then { st with freeList := st.freeList ++ [b] } else st

/-- Remove entry `f` by moving the last entry into its place. -/
def swapRemove (free : List Block) (f : Nat) : List Block :=
  match free.getLast? with
  | none => free
  | some last => (free.set f last).dropLast

/-- `alloc_slot`: first fit in the free list, else the end of the pool. -/
def allocSlot (st : Sweep) (s size : Nat) : Sweep :=
  match st.freeList.findIdx? fun b => size ≤ b.size with
  | some f =>
    let b := st.freeList.getD f ⟨0, 0⟩
    { st.setOffset s b.offset with
      freeList :=
        if b.size = size then swapRemove st.freeList f
        else st.freeList.set f ⟨wrap (b.offset + size), b.size - size⟩ }
  | none => { st.setOffset s st.poolEnd with poolEnd := wrap (st.poolEnd + size) }

end Sweep

/-- The scan for the best dying block of a born slot: its index, with the bytes
that it would waste. -/
def bestMatch (info : List Block) (consumed : List Bool) (size : Nat) : Option Nat × Nat :=
  (List.range info.length).foldl (fun best i =>
    let d := info.getD i ⟨0, 0⟩
    if !consumed.getD i false ∧ size ≤ d.size then
      if d.size - size < best.2 then (some i, d.size - size) else best
    else best) (none, u64Max)

structure DirectMatch where
  sweep : Sweep
  consumed : List Bool
  assigned : List Bool

def matchBorn (info : List Block) (born : List Nat) (m : DirectMatch) (bornIdx : Nat) :
    DirectMatch :=
  let s := born.getD bornIdx 0
  match bestMatch info m.consumed (size s) with
  | (none, _) => m
  | (some d, waste) =>
    let start := (info.getD d ⟨0, 0⟩).offset
    let placed := m.sweep.setOffset s start
    { sweep := if waste > 0 then placed.freeBlock ⟨wrap (start + size s), waste⟩ else placed
      consumed := m.consumed.set d true
      assigned := m.assigned.set bornIdx true }

/-- The direct match over the first `maxPerOp` dying and born slots of an op. -/
def directMatch (dying born : List Nat) (st : Sweep) : DirectMatch :=
  let none := List.replicate maxPerOp false
  let dyingCapped := dying.take maxPerOp
  let bornCapped := born.take maxPerOp
  if 0 < dyingCapped.length ∧ 0 < bornCapped.length then
    let info := dyingCapped.map fun s => ⟨st.offset s, size s⟩
    (List.range bornCapped.length).foldl (matchBorn wrap size info born) ⟨st, none, none⟩
  else ⟨st, none, none⟩

/-- The slots that the direct match left over, whose loop skips the flagged ones. -/
def leftOver (xs : List Nat) (flags : List Bool) : List Nat :=
  entriesBut (fun i => decide (i < min xs.length maxPerOp) && flags.getD i false) xs

def sweepOp (dying born : List Nat) (st : Sweep) : Sweep :=
  let m := directMatch wrap size dying born st
  let freed := (leftOver dying m.consumed).foldl
    (fun st s => st.freeBlock ⟨st.offset s, size s⟩) m.sweep
  (leftOver born m.assigned).foldl (fun st s => st.allocSlot wrap s (size s)) freed

def slotSize (s : Nat) : Nat :=
  alignedSize wrap (slotAt slots s).nbytes

/-- The sweep before op `t`, with the slot sizes `size`. -/
def sweepTo (numOps t : Nat) : Sweep :=
  (List.range t).foldl
    (fun st op => sweepOp wrap size (dyingAt slots numOps op) (bornAt slots op) st)
    { offset := fun s => (slotAt slots s).offsetBytes, freeList := [], poolEnd := 0 }

def withOffsets (offset : Nat → Nat) : List TensorSlot :=
  slots.mapIdx fun s slot => { slot with offsetBytes := offset s }

/-- The planner in the arithmetic `wrap`. -/
def planWith (owner : PlanOwner) (slots : List TensorSlot) : Option MemoryPlan := do
  let scan ← slots.foldlM scanSlot {}
  let numOps := scan.maxOp + 1
  let swept := sweepTo wrap (slotSize wrap slots) slots numOps numOps
  let planned : MemoryPlan :=
    { slots := slots
      poolBytes := 0
      numSlots := slots.length
      numExternal := scan.numExternal
      deviceType := scan.deviceType
      deviceIdx := scan.deviceIdx
      deviceCapability := owner.deviceCapability
      rank := owner.rank
      worldSize := owner.worldSize }
  if slots.length - scan.numExternal = 0 then some planned
  else some { planned with
    slots := withOffsets slots swept.offset
    poolBytes := swept.poolEnd }

/-- `BackgroundThread::compute_memory_plan`. -/
def computeMemoryPlan (owner : PlanOwner) (slots : List TensorSlot) : Option MemoryPlan :=
  planWith wrap64 owner slots

end Crucible
