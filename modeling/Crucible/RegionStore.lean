import Crucible.Types

/-! # The region store

The publish stage keeps the memory of every published region in a table of fixed
size.  After each publish a sweep releases the regions that no holder names.  A region
is named by the address of its node.  The owner of the pipeline gives the sweep its
marks: the regions it holds, the region it can still hand to its foreground, and the
generation of the last write of the foreground's holders.
-/
namespace Crucible

/-- `REGION_STORE_CAP`, `UncompiledRegionQueue::CAP` and `RegionMarks::CAP`. -/
def regionStoreCap : Nat := 128
def uncompiledCap : Nat := 64
def regionMarksCap : Nat := 32

structure RegionMarks where
  held : List Nat := []
  handed : Option Nat := none
  hasForeground : Bool := false
  foregroundGeneration : Nat := 0
deriving DecidableEq

/-- `RegionMarks::hold`.  An empty reference adds nothing, and full marks are fatal. -/
def RegionMarks.hold (marks : RegionMarks) : Option Nat → Except Fault RegionMarks
  | none => .ok marks
  | some region =>
    if marks.held.length = regionMarksCap then .error .contract
    else .ok { marks with held := marks.held ++ [region] }

/-- `RegionMemory`: the address of the node with the parts of the region, and the
generation at which it left the view of the foreground.  A slot without a node is
free.  `NOT_LEFT` is `none`. -/
structure RegionMemory (π : Type) where
  node : Option (Nat × π) := none
  leftGeneration : Option Nat := none

/-- The region state of the publish stage.  The queue of uncompiled regions has its
newest region first. -/
structure RegionStore (π : Type) where
  slots : Nat → RegionMemory π := fun _ => {}
  lastPublished : Option Nat := none
  marks : RegionMarks := {}
  uncompiled : List Nat := []
  droppedFull : Nat := 0

namespace RegionStore
variable {π : Type} (store : RegionStore π)

def freeIndex : Option Nat :=
  (List.range regionStoreCap).find? fun i => (store.slots i).node.isNone

def regions : List Nat :=
  (List.range regionStoreCap).filterMap fun i => (store.slots i).node.map Prod.fst

def isHeld (region : Nat) : Bool :=
  region ∈ store.marks.held ∨ region ∈ store.uncompiled

/-- The rule of `sweep_regions_` for one slot. -/
def sweepSlot (memory : RegionMemory π) : RegionMemory π :=
  match memory.node with
  | none => memory
  | some (region, _) =>
    let marks := store.marks
    if some region = store.lastPublished ∨ some region = marks.handed then
      { memory with leftGeneration := none }
    else if marks.hasForeground ∧ memory.leftGeneration = none then
      { memory with leftGeneration := some marks.foregroundGeneration }
    else if store.isHeld region then memory
    else if marks.hasForeground ∧
        marks.foregroundGeneration ≤ memory.leftGeneration.getD u64Max then memory
    else {}

def sweepRegions : RegionStore π :=
  { store with slots := fun i =>
      if i < regionStoreCap then store.sweepSlot (store.slots i) else store.slots i }

/-- `keep_region`: the first slot of the region no longer counts as left. -/
def keepRegion (region : Nat) : RegionStore π :=
  match (List.range regionStoreCap).find? fun i =>
      (store.slots i).node.map Prod.fst = some region with
  | some i =>
    let kept := { store.slots i with leftGeneration := none }
    { store with slots := Function.update store.slots i kept }
  | none => store

/-- The middle of `publish_region`: the node takes a slot, becomes the last published
region and enters the queue.  The marks of the owner start empty. -/
def place (index region : Nat) (parts : π) : RegionStore π :=
  { store with
    slots := Function.update store.slots index { node := some (region, parts) }
    lastPublished := some region
    uncompiled := (region :: store.uncompiled).take uncompiledCap
    marks := {} }

end RegionStore
end Crucible
