import Crucible.KernelIds
import Crucible.TraceBuild

/-! # Lowering a trace to a graph

`lower_trace_to_graph` makes one graph node for each recorded op and one input node for each
external slot, which is a slot that some op reads without a producing op in the trace.  An
absent input is dropped, and the input list is compacted.  A size expression is `pool.integer`
of a dimension, and the pool interns it: its identity is the number itself.
-/
namespace Crucible
open List Function

/-- The fields of a `TraceEntry` that the lowering reads, and the scalar arguments, which it
does not.  A missing array is `none`. -/
structure KernelEntry where
  kernelId : CKernelId
  scalarArgs : List Int := []
  numInputs : Nat := 0
  inputMetas : List TensorMeta := []
  inputTraceIndices : Option (List (Option Nat)) := none
  inputSlotIds : Option (List Nat) := none
  numOutputs : Nat := 0
  outputMetas : Option (List TensorMeta) := none
  outputSlotIds : Option (List Nat) := none
  numInputs_lt : numInputs < 2 ^ 16 := by decide

namespace KernelEntry

/-- The producing op of input `j`. -/
def traceIndex (te : KernelEntry) (j : Nat) : Option Nat :=
  match te.inputTraceIndices with
  | none => none
  | some indices => indices.getD j none

/-- The slot of input `j`, which is `u32Max` for an absent one. -/
def slotId (te : KernelEntry) (j : Nat) : Nat :=
  match te.inputSlotIds with
  | none => u32Max
  | some ids => ids.getD j u32Max

end KernelEntry

/-- The parts of a `TraceGraph` that the lowering reads: the ops in trace order, the number
of slots and the edges.  The producing op of an input comes before the op that reads it. -/
structure TraceGraph where
  ops : List KernelEntry
  numSlots : Nat
  edges : List Edge
  producer_lt : ∀ (i : Nat) (te : KernelEntry) (j k : Nat), ops[i]? = some te →
    te.traceIndex j = some k → k < i

/-- The interned sizes of a tensor, of which there are at most eight. -/
def dimsOf (tensor : TensorMeta) : List Int :=
  (range (if tensor.ndim ≤ 8 then tensor.ndim else 8)).map fun d => tensor.sizes.getD d 0

namespace TraceGraph
variable (tg : TraceGraph)

def IsSlot (sid : Nat) : Prop := sid ≠ u32Max ∧ sid < tg.numSlots

instance (sid : Nat) : Decidable (tg.IsSlot sid) :=
  inferInstanceAs (Decidable (_ ∧ _))

/-- The graph and the node of each external slot, as the first loop builds them. -/
structure Externals where
  graph : Graph Int
  node : Nat → Option Nat := fun _ => none

/-- A new input node, for the tensor that has the slot. -/
def Externals.add (s : Externals) (sid : Nat) (tensor : TensorMeta) : Externals where
  graph := (s.graph.addInput tensor.dtype tensor.deviceIdx (dimsOf tensor)).setOutputSlots
    s.graph.numNodes [sid]
  node := update s.node sid (some s.graph.numNodes)

variable (te : KernelEntry)

/-- The first loop for one input: an external slot that has no node gets one. -/
def addExternal (s : Externals) (j : Nat) : Externals :=
  let sid := te.slotId j
  if (te.traceIndex j).isSome then s
  else if ¬ tg.IsSlot sid then s
  else if (s.node sid).isSome then s
  else s.add sid (te.inputMetas.getD j default)

def addExternals (s : Externals) (te : KernelEntry) : Externals :=
  if te.inputTraceIndices = none ∨ te.inputSlotIds = none then s
  else (range te.numInputs).foldl (tg.addExternal te) s

def externals (g : Graph Int) : Externals := tg.ops.foldl tg.addExternals { graph := g }

/-- The node that input `j` reads, and none for an absent one. -/
def dependency (slotNode : Nat → Option Nat) (opToNode : List Nat) (te : KernelEntry) (j : Nat) :
    Option Nat :=
  let bySlot := if tg.IsSlot (te.slotId j) then slotNode (te.slotId j) else none
  match te.traceIndex j with
  | none => bySlot
  | some k => if k < tg.ops.length then opToNode[k]? else bySlot

def dependencies (slotNode : Nat → Option Nat) (opToNode : List Nat) (te : KernelEntry) :
    List (Nat × Nat) :=
  (range te.numInputs).filterMap fun j =>
    (tg.dependency slotNode opToNode te j).map fun dep => (dep, te.slotId j)

/-- The type, the device and the sizes of a node, which come from its first output. -/
def shapeOf : ScalarType × Int × List Int :=
  match te.outputMetas with
  | none => (.undefined, -1, [])
  | some metas =>
    if 0 < te.numOutputs then
      let tensor := metas.getD 0 default
      (tensor.dtype, tensor.deviceIdx, dimsOf tensor)
    else (.undefined, -1, [])

/-- The node of an op, by one of the two factories.  A node that is not pointwise comes from
the external one and gets its kind afterwards. -/
def addShell (g : Graph Int) (te : KernelEntry) (deps : List Nat) : Graph Int :=
  let kind := classifyNodeKind te.kernelId
  let shape := shapeOf te
  let id := g.numNodes
  if kind = .pointwise then g.addPointwise shape.2.2 shape.1 shape.2.1 .null deps
  else
    let g := g.addExtern (ckernelName te.kernelId) (ckernelName te.kernelId) shape.1 shape.2.1
      shape.2.2 deps []
    g.setNode id { g.node id with kind }

/-- The node of an op, with its number of outputs. -/
def addOp (g : Graph Int) (te : KernelEntry) (deps : List Nat) : Graph Int :=
  let id := g.numNodes
  let g := addShell g te deps
  if 1 < te.numOutputs then g.setNode id { g.node id with numOutputs := te.numOutputs } else g

def lowerOp (slotNode : Nat → Option Nat) (s : Graph Int × List Nat) (te : KernelEntry) :
    Graph Int × List Nat :=
  let deps := tg.dependencies slotNode s.2 te
  let id := s.1.numNodes
  let g := addOp s.1 te (deps.map Prod.fst)
  let g := if deps = [] then g else g.setInputSlots id (deps.map Prod.snd)
  let g :=
    match te.outputSlotIds with
    | none => g
    | some slots => if 0 < te.numOutputs then g.setOutputSlots id slots else g
  (g, s.2 ++ [id])

/-- An op whose result no op of the trace consumes. -/
def isOutput (i : Nat) : Bool := !tg.edges.any fun e => e.src = i && e.kind = .dataFlow

def lowerTraceToGraph (g : Graph Int) : Graph Int :=
  if tg.ops = [] then g
  else
    let first := tg.externals g
    let second := tg.ops.foldl (tg.lowerOp first.node) (first.graph, [])
    let inputIds := (range tg.numSlots).filterMap first.node
    let g := if inputIds = [] then second.1 else { second.1 with inputIds }
    let outputIds := (range tg.ops.length).filterMap fun i =>
      if tg.isOutput i then second.2[i]? else none
    if outputIds = [] then g else { g with outputIds }

/-! ### What the first loop builds -/

/-- The graph of the first loop: the old nodes, and an input node for each external slot. -/
structure ExternalsOf (g : Graph Int) (s : Externals) : Prop where
  numNodes_le : g.numNodes ≤ s.graph.numNodes
  old : ∀ i, i < g.numNodes → s.graph.node i = g.node i
  outputIds : s.graph.outputIds = g.outputIds
  fresh : ∀ i, g.numNodes ≤ i → i < s.graph.numNodes → ∃ dtype deviceIdx size, s.graph.node i =
      { kind := .input, dtype, deviceIdx, ndim := size.length, size }
  node_lt : ∀ sid id, s.node sid = some id → g.numNodes ≤ id ∧ id < s.graph.numNodes
  node_inj : ∀ sid sid' id, s.node sid = some id → s.node sid' = some id → sid = sid'

variable {g : Graph Int} {s : Externals}

theorem ExternalsOf.add (h : ExternalsOf g s) (sid : Nat)
    (tensor : TensorMeta) : ExternalsOf g (s.add sid tensor) := by
  have hnode : ∀ sid' id, (s.add sid tensor).node sid' = some id →
      sid' = sid ∧ id = s.graph.numNodes ∨ sid' ≠ sid ∧ s.node sid' = some id := by
    intro sid' id hid
    rcases eq_or_ne sid' sid with rfl | hne
    · simp only [Externals.add, update_self] at hid
      exact .inl ⟨rfl, (Option.some.inj hid).symm⟩
    · simp only [Externals.add, update_of_ne hne] at hid
      exact .inr ⟨hne, hid⟩
  refine ⟨Nat.le_succ_of_le h.numNodes_le, ?_, h.outputIds, ?_, ?_, ?_⟩
  · intro i hi
    have hne : i ≠ s.graph.numNodes := ne_of_lt (hi.trans_le h.numNodes_le)
    exact (update_of_ne hne _ _).trans (h.old i hi)
  · intro i hge hlt
    rcases Nat.lt_succ_iff_lt_or_eq.mp hlt with hlt | rfl
    · obtain ⟨dtype, dev, size, heq⟩ := h.fresh i hge hlt
      exact ⟨dtype, dev, size, (update_of_ne hlt.ne _ _).trans heq⟩
    · exact ⟨_, _, _, update_self _ _ _⟩
  · intro sid' id hid
    rcases hnode sid' id hid with ⟨-, rfl⟩ | ⟨-, hold⟩
    · exact ⟨h.numNodes_le, lt_add_one _⟩
    · exact ⟨(h.node_lt sid' id hold).1, Nat.lt_succ_of_lt (h.node_lt sid' id hold).2⟩
  · intro sid₁ sid₂ id h₁ h₂
    rcases hnode sid₁ id h₁ with ⟨rfl, rfl⟩ | ⟨-, hold₁⟩
    · rcases hnode sid₂ _ h₂ with ⟨rfl, -⟩ | ⟨-, hold₂⟩
      · rfl
      · exact absurd (h.node_lt sid₂ _ hold₂).2 (lt_irrefl _)
    · rcases hnode sid₂ id h₂ with ⟨-, rfl⟩ | ⟨-, hold₂⟩
      · exact absurd (h.node_lt sid₁ _ hold₁).2 (lt_irrefl _)
      · exact h.node_inj sid₁ sid₂ id hold₁ hold₂

theorem ExternalsOf.addExternal (h : ExternalsOf g s)
    (te : KernelEntry) (j : Nat) : ExternalsOf g (tg.addExternal te s j) := by
  unfold TraceGraph.addExternal
  dsimp only
  split
  · exact h
  · split
    · exact h
    · split
      · exact h
      · exact h.add _ _

theorem ExternalsOf.addExternals (h : ExternalsOf g s)
    (te : KernelEntry) : ExternalsOf g (tg.addExternals s te) := by
  unfold TraceGraph.addExternals
  split
  · exact h
  · exact foldlRecOn _ _ h fun s hs j _ => hs.addExternal tg te j

/-- **The first loop makes one input node for each external slot.** -/
theorem externals_of (g : Graph Int) : ExternalsOf g (tg.externals g) := by
  have hstart : ExternalsOf g { graph := g } :=
    ⟨le_rfl, fun _ _ => rfl, rfl, fun i hge hlt => absurd hlt hge.not_gt, nofun, nofun⟩
  exact foldlRecOn _ _ hstart fun s hs te _ => hs.addExternals tg te

/-- The slot that input `j` reads without a producing op. -/
def externalRead (j : Nat) : Option Nat :=
  if te.traceIndex j = none ∧ tg.IsSlot (te.slotId j) then some (te.slotId j) else none

/-- The slots that op `te` reads without a producing op. -/
def externalReads : List Nat :=
  if te.inputTraceIndices = none ∨ te.inputSlotIds = none then []
  else (range te.numInputs).filterMap (tg.externalRead te)

def externalSlots : List Nat := tg.ops.flatMap tg.externalReads

theorem isSlot_of_external {sid : Nat} (h : sid ∈ tg.externalSlots) : tg.IsSlot sid := by
  obtain ⟨te, -, hte⟩ := mem_flatMap.mp h
  unfold externalReads at hte
  split at hte
  · cases hte
  · obtain ⟨j, -, hj⟩ := mem_filterMap.mp hte
    unfold externalRead at hj
    split at hj
    · rename_i hslot
      cases hj
      exact hslot.2
    · cases hj

theorem addExternal_isSome (s : Externals) (j sid : Nat) :
    ((tg.addExternal te s j).node sid).isSome ↔ (s.node sid).isSome ∨
      te.traceIndex j = none ∧ tg.IsSlot (te.slotId j) ∧ te.slotId j = sid := by
  unfold addExternal
  cases hidx : te.traceIndex j with
  | some k => simp
  | none =>
    simp only [Option.isSome_none, Bool.false_eq_true, if_false, true_and]
    by_cases hslot : tg.IsSlot (te.slotId j)
    · rw [if_neg (not_not.mpr hslot)]
      by_cases hsome : (s.node (te.slotId j)).isSome
      · rw [if_pos hsome]
        exact ⟨.inl, fun h => h.elim id fun h => h.2 ▸ hsome⟩
      · rw [if_neg hsome]
        rcases eq_or_ne sid (te.slotId j) with rfl | hne
        · simp [Externals.add, hslot]
        · simp [Externals.add, hne, Ne.symm hne]
    · simp [hslot]

theorem addExternals_isSome (s : Externals) (sid : Nat) :
    ((tg.addExternals s te).node sid).isSome ↔ (s.node sid).isSome ∨ sid ∈ tg.externalReads te := by
  unfold addExternals externalReads
  split
  · simp
  · generalize range te.numInputs = js
    induction js generalizing s with
    | nil => simp
    | cons j js ih =>
      rw [foldl_cons, ih, addExternal_isSome]
      by_cases hj : te.traceIndex j = none ∧ tg.IsSlot (te.slotId j)
      · have hsame : te.traceIndex j = none ∧ tg.IsSlot (te.slotId j) ∧ te.slotId j = sid ↔
            sid = te.slotId j := ⟨fun h => h.2.2.symm, fun h => ⟨hj.1, hj.2, h.symm⟩⟩
        have hread : tg.externalRead te j = some (te.slotId j) := if_pos hj
        rw [filterMap_cons_some hread, mem_cons, hsame, or_assoc]
      · have hno : ¬ (te.traceIndex j = none ∧ tg.IsSlot (te.slotId j) ∧ te.slotId j = sid) :=
          fun h => hj ⟨h.1, h.2.1⟩
        have hread : tg.externalRead te j = none := if_neg hj
        rw [filterMap_cons_none hread]
        simp only [hno, or_false]

/-- **An external slot has a node, and no other slot has.** -/
theorem externals_isSome (g : Graph Int) (sid : Nat) :
    ((tg.externals g).node sid).isSome ↔ sid ∈ tg.externalSlots := by
  refine foldl_done_inv
    (fun done (s : Externals) => (s.node sid).isSome ↔ sid ∈ done.flatMap tg.externalReads)
    (by simp) fun done te rest s _ hs => ?_
  rw [addExternals_isSome, hs, flatMap_append, mem_append, flatMap_singleton]

/-! ### What the second loop builds -/

/-- Where an input that is kept comes from. -/
inductive Source where
  | op (k : Nat)
  | slot (sid : Nat)
deriving DecidableEq

/-- The source of input `j`, and none for an absent one. -/
def sourceAt (j : Nat) : Option Source :=
  let bySlot := if te.slotId j ∈ tg.externalSlots then some (.slot (te.slotId j)) else none
  match te.traceIndex j with
  | none => bySlot
  | some k => if k < tg.ops.length then some (.op k) else bySlot

def sources : List Source :=
  (range te.numInputs).filterMap (tg.sourceAt te)

/-- The node of a source, when the nodes of the ops start at `base`. -/
def Source.node (slotNode : Nat → Option Nat) (base : Nat) : Source → Nat
  | .op k => base + k
  | .slot sid => (slotNode sid).getD 0

/-- The node that op `te` becomes, apart from its use count. -/
def opNode (inputs : List Nat) : GraphNode Int where
  kind := classifyNodeKind te.kernelId
  dtype := (shapeOf te).1
  deviceIdx := (shapeOf te).2.1
  ndim := (shapeOf te).2.2.length
  size := (shapeOf te).2.2
  body :=
    if classifyNodeKind te.kernelId = .pointwise then .null
    else .external { pythonKernelName := some (ckernelName te.kernelId)
                     cppKernelName := some (ckernelName te.kernelId) }
  inputs := inputs
  numOutputs := if 1 < te.numOutputs then te.numOutputs else 1

end TraceGraph

def GraphNode.unused {E : Type} (n : GraphNode E) : GraphNode E := { n with numUses := 0 }

namespace Graph
variable {E : Type}

theorem addNode_unused (g : Graph E) (n : GraphNode E) (inputs : List Nat)
    (hlen : inputs.length < 2 ^ 16) (i : Nat) :
    ((g.addNode n inputs).node i).unused =
      if i = g.numNodes then { n with inputs }.unused else (g.node i).unused := by
  have htake : inputs.take (inputs.length % 2 ^ 16) = inputs := by
    rw [Nat.mod_eq_of_lt hlen, take_length]
  rw [addNode, foldl_addUse, htake]
  by_cases hi : i = g.numNodes
  · subst hi
    simp only [withUses, allocNode, update_self, GraphNode.unused, if_pos]
  · simp only [withUses, allocNode, update_of_ne hi, GraphNode.unused, if_neg hi]

theorem addNode_frame (g : Graph E) (n : GraphNode E) (inputs : List Nat) :
    (g.addNode n inputs).numNodes = g.numNodes + 1 ∧
      (g.addNode n inputs).outputIds = g.outputIds := by
  rw [addNode, foldl_addUse]
  exact ⟨rfl, rfl⟩

theorem setNode_unused (g : Graph E) (i j : Nat) (n : GraphNode E) :
    ((g.setNode i n).node j).unused = if j = i then n.unused else (g.node j).unused := by
  by_cases hj : j = i
  · subst hj
    rw [setNode_self, if_pos rfl]
  · rw [setNode_of_ne hj, if_neg hj]

end Graph

namespace TraceGraph
variable (tg : TraceGraph)

theorem addOp_frame (g : Graph Int) (te : KernelEntry) (deps : List Nat) :
    (addOp g te deps).numNodes = g.numNodes + 1 ∧ (addOp g te deps).outputIds = g.outputIds := by
  unfold addOp addShell
  dsimp only
  split <;> split <;> exact Graph.addNode_frame _ _ _

theorem addShell_unused (g : Graph Int) (te : KernelEntry) (deps : List Nat)
    (hlen : deps.length < 2 ^ 16) (i : Nat) :
    ((addShell g te deps).node i).unused =
      if i = g.numNodes then { opNode te deps with numOutputs := 1 } else (g.node i).unused := by
  unfold addShell opNode
  by_cases hkind : classifyNodeKind te.kernelId = .pointwise
  · simp only [if_pos hkind]
    rw [Graph.addPointwise, Graph.addNode_unused _ _ _ hlen, hkind]
    rfl
  · simp only [if_neg hkind]
    rw [Graph.setNode_unused]
    by_cases hi : i = g.numNodes
    · subst hi
      have hext := Graph.addNode_unused g
        { kind := .external, dtype := (shapeOf te).1, deviceIdx := (shapeOf te).2.1
          ndim := (shapeOf te).2.2.length, size := (shapeOf te).2.2
          body := .external { pythonKernelName := some (ckernelName te.kernelId)
                              cppKernelName := some (ckernelName te.kernelId) } }
          deps hlen g.numNodes
      rw [if_pos rfl] at hext
      rw [if_pos rfl, if_pos rfl]
      exact congrArg (fun n => { n with kind := classifyNodeKind te.kernelId }) hext
    · rw [if_neg hi, if_neg hi, Graph.addExtern, Graph.addNode_unused _ _ _ hlen, if_neg hi]

/-- **The node of an op**, by either factory. -/
theorem addOp_unused (g : Graph Int) (te : KernelEntry) (deps : List Nat)
    (hlen : deps.length < 2 ^ 16) (i : Nat) :
    ((addOp g te deps).node i).unused =
      if i = g.numNodes then opNode te deps else (g.node i).unused := by
  have hshell := addShell_unused g te deps hlen i
  unfold addOp
  by_cases houts : 1 < te.numOutputs
  · simp only [if_pos houts]
    rw [Graph.setNode_unused]
    by_cases hi : i = g.numNodes
    · subst hi
      rw [if_pos rfl] at hshell ⊢
      rw [if_pos rfl]
      refine (congrArg (fun n => { n with numOutputs := te.numOutputs }) hshell).trans ?_
      simp only [opNode, if_pos houts]
    · rw [if_neg hi] at hshell ⊢
      rw [if_neg hi, hshell]
  · simp only [if_neg houts]
    rw [hshell]
    simp only [opNode, if_neg houts]

theorem dependencies_length (slotNode : Nat → Option Nat) (opToNode : List Nat) (te : KernelEntry) :
    (tg.dependencies slotNode opToNode te).length < 2 ^ 16 := by
  refine lt_of_le_of_lt (length_filterMap_le _ _) ?_
  rw [length_range]
  exact te.numInputs_lt

theorem dependencies_eq {slotNode : Nat → Option Nat}
    (hext : ∀ sid, (slotNode sid).isSome ↔ sid ∈ tg.externalSlots) (base n : Nat) (te : KernelEntry)
    (hprod : ∀ j k, te.traceIndex j = some k → k < n) (hn : n ≤ tg.ops.length) :
    (tg.dependencies slotNode ((range n).map (base + ·)) te).map Prod.fst =
      (tg.sources te).map (Source.node slotNode base) := by
  unfold dependencies sources
  rw [map_filterMap, map_filterMap]
  congr 1
  funext j
  unfold dependency sourceAt
  have hslot : (Option.map Prod.fst (Option.map (fun dep => (dep, te.slotId j))
        (if tg.IsSlot (te.slotId j) then slotNode (te.slotId j) else none))) =
      Option.map (Source.node slotNode base)
        (if te.slotId j ∈ tg.externalSlots then some (.slot (te.slotId j)) else none) := by
    by_cases hs : te.slotId j ∈ tg.externalSlots
    · obtain ⟨id, hid⟩ := Option.isSome_iff_exists.mp ((hext _).mpr hs)
      simp [hs, tg.isSlot_of_external hs, hid, Source.node]
    · have hnone : slotNode (te.slotId j) = none := by
        rw [← Option.not_isSome_iff_eq_none, hext]
        exact hs
      simp [hs, hnone]
  cases hidx : te.traceIndex j with
  | none => exact hslot
  | some k =>
    have hk := hprod j k hidx
    have hlt : k < tg.ops.length := by omega
    simp [hlt, hk, Source.node]

/-- The graph after the second loop has gone through the first `n` ops. -/
structure LoweredTo (first : Externals) (n : Nat) (s : Graph Int × List Nat) : Prop where
  numNodes : s.1.numNodes = first.graph.numNodes + n
  opToNode : s.2 = (range n).map (first.graph.numNodes + ·)
  outputIds : s.1.outputIds = first.graph.outputIds
  old : ∀ i, i < first.graph.numNodes → (s.1.node i).unused = (first.graph.node i).unused
  ops : ∀ i te, i < n → tg.ops[i]? = some te → (s.1.node (first.graph.numNodes + i)).unused =
    opNode te ((tg.sources te).map (Source.node first.node first.graph.numNodes))

theorem lowerOp_frame (slotNode : Nat → Option Nat) (s : Graph Int × List Nat) (te : KernelEntry) :
    (tg.lowerOp slotNode s te).1.numNodes = s.1.numNodes + 1 ∧
      (tg.lowerOp slotNode s te).1.outputIds = s.1.outputIds ∧
      (tg.lowerOp slotNode s te).2 = s.2 ++ [s.1.numNodes] ∧
      ∀ i, (tg.lowerOp slotNode s te).1.node i =
        (addOp s.1 te ((tg.dependencies slotNode s.2 te).map Prod.fst)).node i := by
  obtain ⟨hnum, hout⟩ := addOp_frame s.1 te ((tg.dependencies slotNode s.2 te).map Prod.fst)
  unfold lowerOp
  -- the slot tables are written beside the nodes
  by_cases hdeps : tg.dependencies slotNode s.2 te = []
  · simp only [if_pos hdeps]
    split
    · exact ⟨hnum, hout, trivial, fun _ => rfl⟩
    · split <;> exact ⟨hnum, hout, trivial, fun _ => rfl⟩
  · simp only [if_neg hdeps]
    split
    · exact ⟨hnum, hout, trivial, fun _ => rfl⟩
    · split <;> exact ⟨hnum, hout, trivial, fun _ => rfl⟩

/-- **The second loop puts the node of each op in its place.** -/
theorem LoweredTo.lowerOp {first : Externals} {n : Nat} {s : Graph Int × List Nat}
    {te : KernelEntry} (h : LoweredTo tg first n s)
    (hext : ∀ sid, (first.node sid).isSome ↔ sid ∈ tg.externalSlots)
    (hte : tg.ops[n]? = some te) :
    LoweredTo tg first (n + 1) (tg.lowerOp first.node s te) := by
  obtain ⟨hnum, hout, hids, hnode⟩ := tg.lowerOp_frame first.node s te
  have hlt : n < tg.ops.length := (List.getElem?_eq_some_iff.mp hte).1
  have hlen : ((tg.dependencies first.node s.2 te).map Prod.fst).length < 2 ^ 16 := by
    rw [length_map]
    exact tg.dependencies_length _ _ _
  have hdeps := tg.dependencies_eq hext first.graph.numNodes n te
    (fun j k hk => tg.producer_lt n te j k hte hk) hlt.le
  refine ⟨?_, ?_, hout.trans h.outputIds, fun i hi => ?_, fun i te' hi hte' => ?_⟩
  · rw [hnum, h.numNodes, add_assoc]
  · rw [hids, h.opToNode, h.numNodes, range_succ, map_append, map_singleton]
  · have hne : i ≠ s.1.numNodes := by
      rw [h.numNodes]
      omega
    rw [hnode, addOp_unused _ _ _ hlen, if_neg hne, h.old i hi]
  · rw [hnode, addOp_unused _ _ _ hlen]
    rcases Nat.lt_succ_iff_lt_or_eq.mp hi with hlt' | rfl
    · have hne : first.graph.numNodes + i ≠ s.1.numNodes := by
        rw [h.numNodes]
        omega
      rw [if_neg hne, h.ops i te' hlt' hte']
    · cases hte.symm.trans hte'
      rw [if_pos h.numNodes.symm, h.opToNode, hdeps]

theorem lowered_ops (g : Graph Int) : LoweredTo tg (tg.externals g) tg.ops.length
      (tg.ops.foldl (tg.lowerOp (tg.externals g).node) ((tg.externals g).graph, [])) := by
  have hstart : LoweredTo tg (tg.externals g) 0 ((tg.externals g).graph, []) :=
    ⟨rfl, rfl, rfl, fun _ _ => rfl, fun _ _ h => absurd h (Nat.not_lt_zero _)⟩
  refine foldl_done_inv (fun done s => LoweredTo tg (tg.externals g) done.length s) hstart
    fun done te rest s heq hs => ?_
  have hte : tg.ops[done.length]? = some te := by
    rw [heq, getElem?_append_right le_rfl, Nat.sub_self]
    rfl
  rw [length_append]
  exact hs.lowerOp tg (tg.externals_isSome g) hte

/-- The graph of the first loop, over which the ops are lowered. -/
def first : Externals := tg.externals {}

/-- The number of input nodes, which is the id of the first op's node. -/
def base : Nat := tg.first.graph.numNodes

def inputNodes (te : KernelEntry) : List Nat :=
  (tg.sources te).map (Source.node tg.first.node tg.base)

def outputs : List Nat := (range tg.ops.length).filter tg.isOutput

/-- **The lowered graph**: the input nodes first, and then the node of each op. -/
structure Lowered (g : Graph Int) : Prop where
  numNodes : g.numNodes = tg.base + tg.ops.length
  outputIds : g.outputIds = tg.outputs.map (tg.base + ·)
  inputs : ∀ i, i < tg.base → ∃ dtype deviceIdx size, (g.node i).unused =
    { kind := .input, dtype, deviceIdx, ndim := size.length, size }
  ops : ∀ i te, tg.ops[i]? = some te → (g.node (tg.base + i)).unused = opNode te (tg.inputNodes te)

theorem outputs_eq (opToNode : List Nat) (h : opToNode = (range tg.ops.length).map (tg.base + ·)) :
    ((range tg.ops.length).filterMap fun i => if tg.isOutput i then opToNode[i]? else none) =
      tg.outputs.map (tg.base + ·) := by
  rw [outputs, ← filterMap_eq_map, filterMap_filter]
  refine filterMap_congr fun i hi => ?_
  rw [h, getElem?_map, getElem?_range (mem_range.mp hi)]
  rfl

theorem lowered : tg.Lowered (tg.lowerTraceToGraph {}) := by
  have hfir := tg.externals_of {}
  have hsec := tg.lowered_ops {}
  rw [lowerTraceToGraph]
  by_cases hops : tg.ops = []
  · -- an empty trace adds no node
    have hbase : tg.base = 0 := by
      rw [base, first, externals, hops]
      rfl
    refine ⟨by rw [hbase, hops]; rfl, by rw [outputs, hops]; rfl, fun i hi => ?_,
      fun i te hte => ?_⟩
    · rw [hbase] at hi
      exact absurd hi (Nat.not_lt_zero i)
    · rw [hops] at hte
      cases hte
  · rw [if_neg hops]
    have houtp := tg.outputs_eq _ hsec.opToNode
    have hinp : ∀ i, i < tg.base → ∃ dtype deviceIdx size,
        ((tg.ops.foldl (tg.lowerOp tg.first.node) (tg.first.graph, [])).1.node i).unused =
          { kind := .input, dtype, deviceIdx, ndim := size.length, size } := by
      intro i hi
      obtain ⟨dtype, dev, size, heq⟩ := hfir.fresh i (Nat.zero_le i) hi
      exact ⟨dtype, dev, size, (hsec.old i hi).trans (congrArg GraphNode.unused heq)⟩
    have hnod : ∀ i te, tg.ops[i]? = some te →
        ((tg.ops.foldl (tg.lowerOp tg.first.node) (tg.first.graph, [])).1.node
          (tg.base + i)).unused = opNode te (tg.inputNodes te) := fun i te hte =>
      hsec.ops i te (List.getElem?_eq_some_iff.mp hte).1 hte
    dsimp only
    rw [houtp]
    by_cases hout : tg.outputs.map (tg.base + ·) = []
    · rw [if_pos hout]
      have hids : (tg.ops.foldl (tg.lowerOp (tg.externals {}).node)
          ((tg.externals {}).graph, [])).1.outputIds = tg.outputs.map (tg.base + ·) :=
        (hsec.outputIds.trans hfir.outputIds).trans hout.symm
      split <;> exact ⟨hsec.numNodes, hids, hinp, hnod⟩
    · rw [if_neg hout]
      split <;> exact ⟨hsec.numNodes, rfl, hinp, hnod⟩

end TraceGraph
end Crucible
