import Crucible.Types
import Mathlib.Algebra.BigOperators.Ring.Finset
import Mathlib.Algebra.Order.BigOperators.Group.Finset
import Mathlib.Data.BitVec

/-! # The computation graph

`Graph` holds one node for each computation, in an array indexed by the id of the node.
The inputs of a node and the outputs of the graph name nodes by their ids, and the slot
tables run beside the nodes.  The factories append a node, and `recompute_uses_` counts
the uses of every node from scratch.

A size expression is interned, so the passes compare it by its identity: `E` is the type
of those identities.  A use count is a word of 16 bits.
-/
namespace Crucible
open List Function BitVec

inductive NodeKind where
  | input | constant | pointwise | reduction | scan | sort | external | template | mutation | nop
deriving DecidableEq

inductive ReduceOp where
  | sum | prod | max | min | argmax | argmin | any | xorSum | welford | dot
deriving DecidableEq

inductive ReduceHint where
  | default | inner | outer
deriving DecidableEq

/-- `ComputeBody`, with each instruction as the word that holds it.  The array of auxiliary
values is absent until the body needs one. -/
structure ComputeBody where
  ops : List Nat
  aux : Option (List Int) := none
deriving DecidableEq

structure ExternInfo where
  pythonKernelName : Option String
  cppKernelName : Option String
  constantArgs : List Int := []
deriving DecidableEq

/-- What `body` points to.  The pointer has no type of its own: the kind of the node says
through which struct it is read. -/
inductive NodeBody where
  | null
  | compute (body : ComputeBody)
  | external (info : ExternInfo)
deriving DecidableEq

/-- `GraphNode`.  The id is the index in the array of nodes. -/
structure GraphNode (E : Type) where
  kind : NodeKind := .nop
  dead : Bool := false
  ndim : Nat := 0
  nred : Nat := 0
  dtype : ScalarType := .undefined
  srcDtype : ScalarType := .undefined
  deviceIdx : Int := -1
  reduceOp : ReduceOp := .sum
  reduceHint : ReduceHint := .default
  size : List E := []
  body : NodeBody := .null
  inputs : List Nat := []
  numUses : BitVec 16 := 0
  numOutputs : Nat := 1
deriving DecidableEq

namespace GraphNode
variable {E : Type}

def hasComputeBody (n : GraphNode E) : Bool :=
  n.kind = .pointwise || n.kind = .reduction || n.kind = .scan

def hasExternInfo (n : GraphNode E) : Bool := n.kind = .external || n.kind = .template

end GraphNode

/-- `Graph`.  An unset entry of the slot tables is the empty list. -/
structure Graph (E : Type) where
  numNodes : Nat := 0
  node : Nat → GraphNode E := fun _ => {}
  inputSlots : Nat → List Nat := fun _ => []
  outputSlots : Nat → List Nat := fun _ => []
  inputIds : List Nat := []
  outputIds : List Nat := []

namespace Graph
variable {E : Type} (g : Graph E)

def setNode (i : Nat) (n : GraphNode E) : Graph E :=
  { g with node := update g.node i n }

def addUse (i : Nat) : Graph E :=
  g.setNode i { g.node i with numUses := (g.node i).numUses + 1 }

def dropUse (i : Nat) : Graph E :=
  g.setNode i { g.node i with numUses := (g.node i).numUses - 1 }

/-- `alloc_node_` and the fields that a factory fills. -/
def allocNode (n : GraphNode E) : Graph E :=
  { g with numNodes := g.numNodes + 1, node := update g.node g.numNodes n }

/-- A factory with inputs: `set_inputs_` keeps their number in 16 bits, and counts a use for
each of them. -/
def addNode (n : GraphNode E) (inputs : List Nat) : Graph E :=
  inputs.foldl addUse (g.allocNode { n with inputs := inputs.take (inputs.length % 2 ^ 16) })

def addInput (dtype : ScalarType) (deviceIdx : Int) (size : List E) : Graph E :=
  g.allocNode { kind := .input, dtype, deviceIdx, ndim := size.length, size }

/-- `add_pointwise`, with the body that the caller hands over. -/
def addPointwise (ranges : List E) (dtype : ScalarType) (deviceIdx : Int) (body : NodeBody)
    (inputs : List Nat) : Graph E :=
  g.addNode { kind := .pointwise, dtype, deviceIdx, ndim := ranges.length, size := ranges, body }
    inputs

def addExtern (pyName cppName : String) (dtype : ScalarType) (deviceIdx : Int) (size : List E)
    (inputs : List Nat) (constantArgs : List Int) : Graph E :=
  g.addNode
    { kind := .external, dtype, deviceIdx, ndim := size.length, size
      body := .external { pythonKernelName := some pyName, cppKernelName := some cppName,
                          constantArgs } }
    inputs

def setInputSlots (i : Nat) (slots : List Nat) : Graph E :=
  { g with inputSlots := update g.inputSlots i slots }

def setOutputSlots (i : Nat) (slots : List Nat) : Graph E :=
  { g with outputSlots := update g.outputSlots i slots }

/-- The uses that the inputs of node `i` are, counted only when it is live. -/
def countInputs (i : Nat) : Graph E :=
  if (g.node i).dead then g else (g.node i).inputs.foldl addUse g

/-- The use that an entry of the output list is, counted only for a live node. -/
def countOutput (i : Nat) : Graph E := if (g.node i).dead then g else g.addUse i

def recomputeUses : Graph E :=
  let zeroed := (range g.numNodes).foldl
    (fun g i => g.setNode i { g.node i with numUses := 0 }) g
  let counted := (range g.numNodes).foldl countInputs zeroed
  g.outputIds.foldl countOutput counted

def countLive : Nat := (range g.numNodes).countP fun i => !(g.node i).dead

def live (i : Nat) : Bool := !(g.node i).dead

/-- The uses of node `i` by the nodes for which `live` holds, one for each position of an
input list. -/
def usesBy (live : Nat → Bool) (i : Nat) : Nat :=
  ∑ c ∈ Finset.range g.numNodes, if live c then (g.node c).inputs.count i else 0

def withUses (u : Nat → BitVec 16) : Graph E :=
  { g with node := fun i => { g.node i with numUses := u i } }

section Counting
variable {g}

@[simp]
theorem setNode_self (i : Nat) (n : GraphNode E) : (g.setNode i n).node i = n := by
  simp only [setNode, update_self]

@[simp]
theorem setNode_of_ne {i j : Nat} (h : j ≠ i) (n : GraphNode E) :
    (g.setNode i n).node j = g.node j := by
  simp only [setNode, update_of_ne h]

theorem ext_node {g g' : Graph E} (hn : g'.numNodes = g.numNodes)
    (hin : g'.inputSlots = g.inputSlots) (hout : g'.outputSlots = g.outputSlots)
    (hins : g'.inputIds = g.inputIds) (houts : g'.outputIds = g.outputIds)
    (hnode : ∀ i, g'.node i = g.node i) : g' = g := by
  obtain ⟨_, _, _, _, _, _⟩ := g
  obtain rfl := hn
  obtain rfl := hin
  obtain rfl := hout
  obtain rfl := hins
  obtain rfl := houts
  obtain rfl := funext hnode
  rfl

theorem withUses_self {u : Nat → BitVec 16} (h : ∀ i, u i = (g.node i).numUses) :
    g.withUses u = g := by
  simp only [withUses, h]

theorem setNode_uses (i : Nat) (u : BitVec 16) : g.setNode i { g.node i with numUses := u } =
      g.withUses (update (fun j => (g.node j).numUses) i u) := by
  refine ext_node rfl rfl rfl rfl rfl fun j => ?_
  by_cases hj : j = i
  · subst hj
    rw [setNode_self]
    simp only [withUses, update_self]
  · rw [setNode_of_ne hj]
    simp only [withUses, update_of_ne hj]

theorem addUse_eq (i : Nat) :
    g.addUse i = g.withUses fun j => (g.node j).numUses + BitVec.ofNat 16 ([i].count j) := by
  rw [addUse, setNode_uses]
  refine congrArg g.withUses (funext fun j => ?_)
  by_cases hj : j = i
  · subst hj
    rw [update_self, count_singleton_self]
    rfl
  · rw [update_of_ne hj, count_cons_of_ne (Ne.symm hj), count_nil, BitVec.add_zero]

theorem dropUse_eq (i : Nat) :
    g.dropUse i = g.withUses fun j => (g.node j).numUses - BitVec.ofNat 16 ([i].count j) := by
  rw [dropUse, setNode_uses]
  refine congrArg g.withUses (funext fun j => ?_)
  by_cases hj : j = i
  · subst hj
    rw [update_self, count_singleton_self]
    rfl
  · rw [update_of_ne hj, count_cons_of_ne (Ne.symm hj), count_nil, BitVec.sub_zero]

theorem foldl_addUse (ids : List Nat) (g : Graph E) : ids.foldl addUse g =
      g.withUses fun i => (g.node i).numUses + BitVec.ofNat 16 (ids.count i) := by
  induction ids generalizing g with
  | nil => simp [withUses]
  | cons j ids ih =>
    rw [foldl_cons, ih, addUse_eq]
    refine congrArg g.withUses (funext fun i => ?_)
    rw [show j :: ids = [j] ++ ids from rfl, count_append, ofNat_add, ← add_assoc]
    rfl

theorem foldl_dropUse (ids : List Nat) (g : Graph E) : ids.foldl dropUse g =
      g.withUses fun i => (g.node i).numUses - BitVec.ofNat 16 (ids.count i) := by
  induction ids generalizing g with
  | nil => simp [withUses]
  | cons j ids ih =>
    rw [foldl_cons, ih, dropUse_eq]
    refine congrArg g.withUses (funext fun i => ?_)
    rw [show j :: ids = [j] ++ ids from rfl, count_append, ofNat_add, sub_add_eq_sub_sub]
    rfl

theorem countInputs_eq (c : Nat) : g.countInputs c = g.withUses fun i => (g.node i).numUses +
      BitVec.ofNat 16 (if g.live c then (g.node c).inputs.count i else 0) := by
  unfold countInputs live
  cases (g.node c).dead with
  | true => exact (withUses_self fun i => add_zero _).symm
  | false => exact foldl_addUse _ g

theorem countOutput_eq (c : Nat) : g.countOutput c = g.withUses fun i => (g.node i).numUses +
      BitVec.ofNat 16 (if g.live i then [c].count i else 0) := by
  unfold countOutput live
  cases hdead : (g.node c).dead with
  | true =>
    have hzero : ∀ i, (if (!(g.node i).dead) = true then [c].count i else 0) = 0 := by
      intro i
      by_cases hi : c = i
      · rw [← hi, hdead]
        rfl
      · rw [count_cons_of_ne hi, count_nil, ite_self]
    rw [if_pos rfl]
    exact (withUses_self fun i => by rw [hzero, BitVec.add_zero]).symm
  | false =>
    rw [addUse_eq]
    refine congrArg g.withUses (funext fun i => ?_)
    by_cases hi : c = i
    · rw [← hi, hdead]
      rfl
    · rw [count_cons_of_ne hi, count_nil, ite_self]

/-- The first loop of `recompute_uses_`. -/
theorem zeroUses_eq (n : Nat) (g : Graph E) :
    (range n).foldl (fun g i => g.setNode i { g.node i with numUses := 0 }) g =
      g.withUses fun i => if i < n then 0 else (g.node i).numUses := by
  induction n with
  | zero => simp [withUses]
  | succ n ih =>
    rw [range_succ, foldl_append, ih, foldl_cons, setNode_uses]
    refine congrArg g.withUses (funext fun i => ?_)
    by_cases hi : i = n
    · subst hi
      rw [update_self, if_pos (lt_add_one i)]
    · rw [update_of_ne hi]
      have hlt : i < n ↔ i < n + 1 := by omega
      simp only [withUses, hlt]

/-- The second loop of `recompute_uses_`. -/
theorem countAll_eq (n : Nat) (g : Graph E) :
    (range n).foldl countInputs g = g.withUses fun i => (g.node i).numUses +
      BitVec.ofNat 16 (∑ c ∈ Finset.range n,
        if g.live c then (g.node c).inputs.count i else 0) := by
  induction n with
  | zero => simp [withUses]
  | succ n ih =>
    rw [range_succ, foldl_append, ih, foldl_cons, countInputs_eq]
    refine congrArg g.withUses (funext fun i => ?_)
    rw [Finset.sum_range_succ, ofNat_add, ← add_assoc]
    rfl

/-- The third loop of `recompute_uses_`. -/
theorem countOutputs_eq (ids : List Nat) (g : Graph E) :
    ids.foldl countOutput g = g.withUses fun i => (g.node i).numUses +
      BitVec.ofNat 16 (if g.live i then ids.count i else 0) := by
  induction ids generalizing g with
  | nil => simp [withUses]
  | cons j ids ih =>
    rw [foldl_cons, ih, countOutput_eq]
    refine congrArg g.withUses (funext fun i => ?_)
    have hsum : (if g.live i then (j :: ids).count i else 0) =
        (if g.live i then [j].count i else 0) + if g.live i then ids.count i else 0 := by
      rw [show j :: ids = [j] ++ ids from rfl, count_append]
      split <;> rfl
    rw [hsum, ofNat_add, ← add_assoc]
    rfl

/-- **What `recompute_uses_` counts for a live node**: its uses by live nodes, and one for
each time that it is listed as an output, in 16 bits. -/
theorem recomputeUses_eq : g.recomputeUses = g.withUses fun i =>
      (if i < g.numNodes then 0 else (g.node i).numUses) + BitVec.ofNat 16 (g.usesBy g.live i) +
        BitVec.ofNat 16 (if g.live i then g.outputIds.count i else 0) := by
  simp only [recomputeUses, zeroUses_eq, countAll_eq, countOutputs_eq]
  rfl

end Counting

end Graph
end Crucible
