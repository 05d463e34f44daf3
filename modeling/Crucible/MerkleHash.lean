import Crucible.TraceDag

/-! # Merkle hashes and the comparison of two traces

`recompute_merkle` gives every node a hash of what stands below it, and `dag_diff` takes
two nodes with the same hash for identical.  The hash folds neither the values of the arms
nor anything of a loop body but the regions on its chain, and a region at the open end of a
chain stands for its own content hash, so that the two last regions of a chain can change
places.  Where none of this matters, an answer of identical means that the two traces replay
in the same way, unless two folds collide by chance.
-/
namespace Crucible

/-! ### Hashes of records -/

/-- `hash_impl` of `reflect_hash`, over the hashes of the members. -/
def reflectHash (members : List Nat) : Nat :=
  fmix64 (members.foldl (fun h member => wrap64 (h * goldenRatio) ^^^ member) goldenRatio)

/-- `hash_field` of an array of integers. -/
def hashArray (values : List Nat) : Nat :=
  fmix64 (values.foldl (fun h value => wrap64 (h * 0x100000001b3) ^^^ fmix64 value) 0)

/-- `std::to_underlying` of a `Guard::Kind`. -/
def GuardKind.code : GuardKind → Nat
  | .shapeDim => 0
  | .scalarValue => 1
  | .dtype => 2
  | .device => 3
  | .opSequence => 4

/-- `Guard::hash`.  The padding is a member like the others. -/
def Guard.hash (guard : Guard) : Nat :=
  reflectHash [fmix64 guard.kind.code, hashArray [0, 0, 0], reflectHash [fmix64 guard.opIndex],
    fmix64 guard.argIndex, fmix64 guard.dimIndex]

/-- `reflect_hash` of a `FeedbackEdge`. -/
def FeedbackEdge.hash (edge : FeedbackEdge) : Nat :=
  reflectHash [fmix64 edge.outputIdx, fmix64 edge.inputIdx]

def feedbackSignature (edges : List FeedbackEdge) : Nat :=
  if edges = [] then 0
  else combineIds (edges.foldl (fun state edge => combineIds state edge.hash) 0x6665656462616B73)
    edges.length

/-- `std::to_underlying` of a `LoopTermKind`. -/
def LoopTermKind.code : LoopTermKind → Nat
  | .repeatTerm => 0
  | .untilTerm => 1

def looptermHash (header : LoopHeader) : Nat :=
  [header.termKind.code, header.repeatCount, header.epsilon].foldl
    (fun h member => fmix64 (h ^^^ member)) 0x7465726D696E6174

/-- The content hashes of the regions on a chain.  The walk goes on after a terminal. -/
def TraceNode.regionHashes : TraceNode → List Nat
  | .null => []
  | .terminal next => next.regionHashes
  | .region node next => node.contentHash :: next.regionHashes
  | .branch _ _ next => next.regionHashes
  | .loop _ _ next => next.regionHashes

def computeBodyContentHash (body : TraceNode) : Nat :=
  fmix64 (body.regionHashes.foldl combineIds goldenRatio)

/-! ### Merkle hashes -/

def loopSalt : Nat := 0x4C4F4F504E4F4445
def feedbackSalt : Nat := 0x6665656462616B00

/-- What `compute_merkle_hash` folds of a loop before its continuation. -/
def LoopHeader.fold (header : LoopHeader) : Nat :=
  fmix64 (header.bodyContentHash ^^^ loopSalt) ^^^
    fmix64 (feedbackSignature header.feedbackEdges ^^^ feedbackSalt) ^^^ looptermHash header

def foldArms (state : Nat) (targets : List Nat) : Nat :=
  targets.foldl (fun state target => wrap64 ((state ^^^ fmix64 target) * goldenRatio)) state

def foldNext (state : Nat) : Option Nat → Nat
  | none => state
  | some next => fmix64 (state ^^^ next)

mutual

/-- The hash that `recompute_merkle` leaves in a node.  The target of an arm is not null. -/
def TraceNode.merkleHash : TraceNode → Nat
  | .null => 0
  | .terminal _ => 0
  | .region node next =>
    foldNext node.contentHash (if next.isNode then some next.merkleHash else none)
  | .branch guard arms next =>
    foldNext (foldArms (fmix64 guard.hash) arms.merkleHashes)
      (if next.isNode then some next.merkleHash else none)
  | .loop header _ next =>
    foldNext header.fold (if next.isNode then some next.merkleHash else none)

def Arms.merkleHashes : Arms → List Nat
  | .nil => []
  | .cons _ target rest => target.merkleHash :: rest.merkleHashes

end

/-! ### The comparison -/

/-- `DagDiff::Kind`. -/
inductive DagDiffKind where
  | identical | kindMismatch | contentMismatch | branchMismatch | loopMismatch
  | structureMismatch
deriving DecidableEq

structure DagDiff where
  nodeA : TraceNode := .null
  nodeB : TraceNode := .null
  depth : Nat := 0
  kind : DagDiffKind := .identical

mutual

def dagDiff : TraceNode → TraceNode → Nat → DagDiff
  | .null, b, depth =>
    if b.isNode then { nodeA := .null, nodeB := b, depth, kind := .structureMismatch }
    else { depth }
  | .terminal next, b, depth =>
    let a := TraceNode.terminal next
    match b with
    | .null => { nodeA := a, nodeB := .null, depth, kind := .structureMismatch }
    | .terminal _ => { depth }
    | b =>
      if a.merkleHash = b.merkleHash then { depth }
      else { nodeA := a, nodeB := b, depth, kind := .kindMismatch }
  | .region node next, b, depth =>
    let a := TraceNode.region node next
    match b with
    | .null => { nodeA := a, nodeB := .null, depth, kind := .structureMismatch }
    | .region node' next' =>
      if a.merkleHash = (TraceNode.region node' next').merkleHash then { depth }
      else if node.contentHash ≠ node'.contentHash then
        { nodeA := a, nodeB := .region node' next', depth, kind := .contentMismatch }
      else dagDiff next next' (depth + 1)
    | b =>
      if a.merkleHash = b.merkleHash then { depth }
      else { nodeA := a, nodeB := b, depth, kind := .kindMismatch }
  | .branch guard arms next, b, depth =>
    let a := TraceNode.branch guard arms next
    match b with
    | .null => { nodeA := a, nodeB := .null, depth, kind := .structureMismatch }
    | .branch guard' arms' next' =>
      let b := TraceNode.branch guard' arms' next'
      if a.merkleHash = b.merkleHash then { depth }
      else if guard.hash ≠ guard'.hash ∨ arms.values.length ≠ arms'.values.length then
        { nodeA := a, nodeB := b, depth, kind := .branchMismatch }
      else
        match armsDiff { nodeA := a, nodeB := b, depth, kind := .branchMismatch } arms arms' with
        | some diff => diff
        | none => dagDiff next next' (depth + 1)
    | b =>
      if a.merkleHash = b.merkleHash then { depth }
      else { nodeA := a, nodeB := b, depth, kind := .kindMismatch }
  | .loop header body next, b, depth =>
    let a := TraceNode.loop header body next
    match b with
    | .null => { nodeA := a, nodeB := .null, depth, kind := .structureMismatch }
    | .loop header' body' next' =>
      let b := TraceNode.loop header' body' next'
      if a.merkleHash = b.merkleHash then { depth }
      else if header ≠ header' then { nodeA := a, nodeB := b, depth, kind := .loopMismatch }
      else
        let bodyDiff := dagDiff body body' (depth + 1)
        if bodyDiff.kind ≠ .identical then bodyDiff else dagDiff next next' (depth + 1)
    | b =>
      if a.merkleHash = b.merkleHash then { depth }
      else { nodeA := a, nodeB := b, depth, kind := .kindMismatch }

/-- The loop over the arms of two branches.  `mismatch` is the answer at a pair of values
that differ, and the answer is none when the arms agree. -/
def armsDiff (mismatch : DagDiff) : Arms → Arms → Option DagDiff
  | .cons value target rest, .cons value' target' rest' =>
    if value ≠ value' then some mismatch
    else
      let armDiff := dagDiff target target' (mismatch.depth + 1)
      if armDiff.kind ≠ .identical then some armDiff else armsDiff mismatch rest rest'
  | _, _ => none

end

end Crucible
