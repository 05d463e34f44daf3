import Crucible.TraceRun

/-! # Builds that end

The edge buffer is sized by the numbers of inputs and outputs, and each tensor adds
at most one edge.  So the fatal check of the buffer never fires on a trace whose
tensors can be counted in 32 bits, and a build on it returns a graph
(`buildTraceFrom_total`).
-/
namespace Crucible
open List
open OpenAddressing RecordedOp

section Step
variable {env : BuildEnv} {st : BuildState}

theorem addEdge_total (h : st.edges.length < env.edgeCap) (edge : Edge) :
    st.addEdge env edge = some { st with edges := st.edges ++ [edge] } := by
  rw [BuildState.addEdge, if_pos h]

theorem resolveInput_total (i j : Nat) (tensor : TensorMeta) (h : st.edges.length < env.edgeCap) :
    ∃ st' found, resolveInput env i j tensor st = some (st', found) ∧
      st'.edges.length ≤ st.edges.length + 1 := by
  unfold resolveInput
  dsimp only
  split
  · rw [addEdge_total h]
    refine ⟨_, _, rfl, ?_⟩
    rw [touch_edges, length_append]
    exact le_rfl
  · split
    · exact ⟨_, _, rfl, Nat.le_succ _⟩
    · exact ⟨_, _, rfl, Nat.le_succ _⟩

theorem resolveOutput_total (i j : Nat) (tensor : TensorMeta) (h : st.edges.length < env.edgeCap) :
    ∃ st' slot, resolveOutput env i j tensor st = some (st', slot) ∧
      st'.edges.length ≤ st.edges.length + 1 := by
  unfold resolveOutput
  split
  · exact ⟨_, _, rfl, Nat.le_succ _⟩
  dsimp only
  split
  · split
    · rw [addEdge_total (by rw [touch_edges]; exact h)]
      refine ⟨_, _, rfl, ?_⟩
      rw [touch_edges, length_append]
      exact le_rfl
    · exact ⟨_, _, rfl, by rw [touch_edges]; exact Nat.le_succ _⟩
  · split
    · split
      · exact ⟨_, _, rfl, Nat.le_succ _⟩
      · exact ⟨_, _, rfl, Nat.le_succ _⟩
    · exact ⟨_, _, rfl, Nat.le_succ _⟩

end Step

section Loops
variable {env : BuildEnv}

theorem resolveEach_total {α : Type}
    {resolve : Nat → TensorMeta → BuildState → Option (BuildState × α)}
    (hres : ∀ j tensor {st : BuildState}, st.edges.length < env.edgeCap →
      ∃ st' one, resolve j tensor st = some (st', one) ∧ st'.edges.length ≤ st.edges.length + 1)
    (j : Nat) (tensors : List TensorMeta) (st : BuildState)
    (h : st.edges.length + tensors.length ≤ env.edgeCap) :
    ∃ st' all, resolveEach resolve j tensors st = some (st', all) ∧
      st'.edges.length ≤ st.edges.length + tensors.length := by
  induction tensors generalizing j st with
  | nil => exact ⟨st, [], rfl, le_rfl⟩
  | cons tensor tensors ih =>
    rw [length_cons] at h ⊢
    obtain ⟨mid, one, hstep, hmid⟩ := hres j tensor
      (show st.edges.length < env.edgeCap by omega)
    obtain ⟨st', others, hrest, hle⟩ := ih (j + 1) mid (by omega)
    refine ⟨st', one :: others, ?_, by omega⟩
    simp only [resolveEach, hstep, hrest, Option.bind_eq_bind, Option.bind_some]

theorem buildOps_total (run : List TensorMeta) (first i : Nat) (ops : List RecordedOp)
    (st : BuildState)
    (h : st.edges.length + (accessesFrom run first i ops).length ≤ env.edgeCap) :
    ∃ st' entries, buildOps env run first i ops st = some (st', entries) := by
  induction ops generalizing i st with
  | nil => exact ⟨st, [], rfl⟩
  | cons op ops ih =>
    simp only [accessesFrom, length_append, length_map] at h
    obtain ⟨inner, ins, hins, hinn⟩ := resolveEach_total
      (fun j tensor => resolveInput_total i j tensor) 0 (opInputs run first op) st
      (show _ ≤ env.edgeCap by omega)
    obtain ⟨outer, outs, houts, hout⟩ := resolveEach_total
      (fun j tensor => resolveOutput_total i j tensor) 0 (opOutputs run first op) inner
      (show _ ≤ env.edgeCap by omega)
    rw [← resolveInputs_eq] at hins
    rw [← resolveOutputs_eq] at houts
    obtain ⟨st', others, hrest⟩ := ih (i + 1) outer (by omega)
    refine ⟨st', .ofOp op (opInputs run first op) (opOutputs run first op) ins outs :: others, ?_⟩
    simp only [buildOps, buildOp, hins, houts, hrest, Option.bind_eq_bind, Option.bind_some]

end Loops

/-! ### The size of the buffer -/

def RecordedOp.numTensors (op : RecordedOp) : Nat :=
  match op.metaIndex with
  | none => 0
  | some _ => op.entry.numInputs + op.entry.numOutputs

theorem accessesFrom_length (run : List TensorMeta) (first i : Nat) (ops : List RecordedOp) :
    (accessesFrom run first i ops).length = (ops.map numTensors).sum := by
  induction ops generalizing i with
  | nil => rfl
  | cons op ops ih =>
    have hop : (opInputs run first op).length + (opOutputs run first op).length =
        op.numTensors := by
      simp only [opInputs, opOutputs, numTensors]
      cases op.metaIndex with
      | none => rfl
      | some start => simp [runSlice]
    simp only [accessesFrom, length_append, length_map, ih, map_cons, sum_cons]
    omega

theorem scanTrace_totals {ops : List RecordedOp} {acc scan : TraceScan}
    (h : ops.foldlM scanTraceOp acc = .ok scan)
    (hlt : acc.totalInputs + acc.totalOutputs + (ops.map numTensors).sum < 2 ^ 32) :
    scan.totalInputs + scan.totalOutputs =
      acc.totalInputs + acc.totalOutputs + (ops.map numTensors).sum := by
  induction ops generalizing acc with
  | nil =>
    cases h
    rfl
  | cons op ops ih =>
    rw [foldlM_cons] at h
    rw [map_cons, sum_cons] at hlt ⊢
    cases hm : op.metaIndex with
    | none =>
      have hn : op.numTensors = 0 := by rw [numTensors, hm]
      rw [scanTraceOp, hm] at h
      dsimp only at h
      split at h
      · cases h
      · rw [ih h (by omega)]
        omega
    | some start =>
      have hn : op.numTensors = op.entry.numInputs + op.entry.numOutputs := by
        rw [numTensors, hm]
      rw [scanTraceOp, hm] at h
      have hins : wrap32 (acc.totalInputs + op.entry.numInputs) =
          acc.totalInputs + op.entry.numInputs := wrap32_of_lt (by omega)
      have houts : wrap32 (acc.totalOutputs + op.entry.numOutputs) =
          acc.totalOutputs + op.entry.numOutputs := wrap32_of_lt (by omega)
      have hrest := ih h (by simp only [hins, houts]; omega)
      simp only [hins, houts] at hrest
      omega

theorem openScratch_edgeCapMax (sc : Scratch) (scan : TraceScan) :
    addSat32 scan.totalInputs scan.totalOutputs ≤ (openScratch sc scan).edgeCapMax := by
  have hgrow : addSat32 scan.totalInputs scan.totalOutputs ≤
      (ensureScratchBuffers sc scan.totalInputs scan.totalOutputs).edgeCapMax :=
    (le_max_right _ _).trans (le_max_right _ _)
  unfold openScratch nextGeneration
  dsimp only
  split
  · exact hgrow
  · exact hgrow

/-- **A build on a trace of fewer than `2 ^ 32` tensors returns a graph**, when the
metadata run fits the log and no op lost its metadata. -/
theorem buildTraceFrom_total (sc : Scratch) (log : Nat → TensorMeta) {ops : List RecordedOp}
    {scan : TraceScan} (hscan : scanTrace ops = .ok scan)
    (hrun : scan.maxMetaEnd - scan.firstMeta.getD 0 ≤ metaLogCapacity)
    (hten : (ops.map numTensors).sum < 2 ^ 32) :
    ∃ sc' trace, buildTraceFrom sc log ops = .built sc' trace := by
  have htot := scanTrace_totals hscan (by simpa using hten)
  have hedge : (ops.map numTensors).sum ≤ (openScratch sc scan).edgeCapMax := by
    refine le_trans ?_ (openScratch_edgeCapMax sc scan)
    simp only [zero_add] at htot
    rw [addSat32, htot]
    exact Nat.le_min.mpr ⟨Nat.le_refl _, Nat.le_of_lt_succ hten⟩
  obtain ⟨st, entries, hops⟩ := buildOps_total
    (copyRun log (scan.firstMeta.getD 0) scan.maxMetaEnd) (scan.firstMeta.getD 0) 0 ops
    { map := (openScratch sc scan).map }
    (show _ ≤ (buildEnv (openScratch sc scan) scan).edgeCap by
      rw [accessesFrom_length]
      simpa [buildEnv] using hedge)
  simp only [buildTraceFrom, hscan, if_neg hrun.not_gt, hops]
  exact ⟨_, _, rfl⟩

end Crucible
