import Crucible.MerkleHash

/-! # When identical traces replay alike

An answer of identical from `dag_diff` is as strong as what the merkle hashes fold.  Two
traces whose chains end in a terminal, whose guards determine the values of their arms and
whose loop bodies are chains of regions replay alike under every guard evaluator when
`dag_diff` takes them for identical, unless two folds collide.  Each of the three conditions
is needed.
-/
namespace Crucible
open List TraceNode

/-! ### What a merkle hash folds -/

/-- The merkle hash of a continuation, if there is one. -/
def TraceNode.nextHash (next : TraceNode) : Option Nat :=
  if next.isNode then some next.merkleHash else none

/-- What the merkle hash of one node is folded from.  A region before the last region of
an open chain is folded from the xor of the two content hashes. -/
inductive MerkleInput where
  | zero
  | openPair (word : Nat)
  | region (contentHash : Nat) (next : Option Nat)
  | branch (guard : Guard) (targets : List Nat) (next : Option Nat)
  | loop (header : LoopHeader) (next : Option Nat)
deriving DecidableEq

def MerkleInput.fold : MerkleInput → Nat
  | .zero => 0
  | .openPair word => fmix64 word
  | .region contentHash next => foldNext contentHash next
  | .branch guard targets next => foldNext (foldArms (fmix64 guard.hash) targets) next
  | .loop header next => foldNext header.fold next

def TraceNode.merkleInput : TraceNode → MerkleInput
  | .null => .zero
  | .terminal _ => .zero
  | .region node (.region last .null) => .openPair (node.contentHash ^^^ last.contentHash)
  | .region node next => .region node.contentHash next.nextHash
  | .branch guard arms next => .branch guard arms.merkleHashes next.nextHash
  | .loop header _ next => .loop header next.nextHash

theorem TraceNode.merkleHash_eq (node : TraceNode) : node.merkleHash = node.merkleInput.fold := by
  fun_cases merkleInput node with
  | case1 => rw [merkleHash, MerkleInput.fold]
  | case2 next => rw [merkleHash, MerkleInput.fold]
  | case3 node last => simp only [merkleHash, MerkleInput.fold, isNode, foldNext, if_true,
      Bool.false_eq_true, if_false]
  | case4 node next hopen => rw [merkleHash, MerkleInput.fold, nextHash]
  | case5 guard arms next => rw [merkleHash, MerkleInput.fold, nextHash]
  | case6 header body next => rw [merkleHash, MerkleInput.fold, nextHash]

mutual

/-- The nodes that a comparison or a replay can reach. -/
def TraceNode.nodes : TraceNode → List TraceNode
  | .null => []
  | .terminal next => [.terminal next]
  | .region node next => .region node next :: next.nodes
  | .branch guard arms next => .branch guard arms next :: (arms.nodes ++ next.nodes)
  | .loop header body next => .loop header body next :: (body.nodes ++ next.nodes)

def Arms.nodes : Arms → List TraceNode
  | .nil => []
  | .cons _ target rest => target.nodes ++ rest.nodes

end

variable {node : TraceNode}

theorem TraceNode.mem_nodes_self (h : node.isNode = true) : node ∈ node.nodes := by
  cases node with
  | null => cases h
  | terminal next => exact mem_singleton_self _
  | region node next => exact mem_cons_self
  | branch guard arms next => exact mem_cons_self
  | loop header body next => exact mem_cons_self

/-- No two folds over different inputs give the same hash, for the nodes of two lists. -/
structure NoCollision (xs ys : List TraceNode) : Prop where
  merkle : ∀ x ∈ xs, ∀ y ∈ ys, x.merkleHash = y.merkleHash → x.merkleInput = y.merkleInput
  guard : ∀ guard arms next guard' arms' next', TraceNode.branch guard arms next ∈ xs →
    TraceNode.branch guard' arms' next' ∈ ys → guard.hash = guard'.hash → guard = guard'
  body : ∀ header body next header' body' next', TraceNode.loop header body next ∈ xs →
    TraceNode.loop header' body' next' ∈ ys →
    computeBodyContentHash body = computeBodyContentHash body' →
    body.regionHashes = body'.regionHashes

/-! ### Traces that their merkle hashes determine -/

/-- A chain of regions that ends in a terminal. -/
def TraceNode.IsPlainBody : TraceNode → Prop
  | .terminal next => next = .null
  | .region _ next => next.IsPlainBody
  | _ => False

/-- What a trace may have that its merkle hashes do not see. -/
inductive TraceFeature where
  /-- A chain may end without a terminal. -/
  | openEnds
  /-- The guard of a branch need not determine the values of its arms. -/
  | freeArms
  /-- A loop body may nest branches and loops. -/
  | nestedBodies
deriving DecidableEq

mutual

/-- A trace with no other features than these.  The content hash of a loop body is the one
of its chain. -/
def TraceNode.IsWithin (features : Set TraceFeature) (armValues : Guard → List Int) :
    TraceNode → Prop
  | .null => .openEnds ∈ features
  | .terminal _ => True
  | .region _ next => next.IsWithin features armValues
  | .branch guard arms next =>
    (arms.values = armValues guard ∨ .freeArms ∈ features) ∧
      arms.IsWithin features armValues ∧ next.IsWithin features armValues
  | .loop header body next =>
    (body.IsPlainBody ∨ .nestedBodies ∈ features ∧ body.IsWithin features armValues) ∧
      header.bodyContentHash = computeBodyContentHash body ∧ next.IsWithin features armValues

def Arms.IsWithin (features : Set TraceFeature) (armValues : Guard → List Int) : Arms → Prop
  | .nil => True
  | .cons _ target rest =>
    target.isNode = true ∧ target.IsWithin features armValues ∧ rest.IsWithin features armValues

end

variable {armValues : Guard → List Int}

theorem TraceNode.IsWithin.isNode (h : node.IsWithin ∅ armValues) : node.isNode = true := by
  cases node with
  | null => exact absurd h (Set.notMem_empty _)
  | terminal next => rfl
  | region node next => rfl
  | branch guard arms next => rfl
  | loop header body next => rfl

theorem TraceNode.IsWithin.nextHash_eq
    (h : node.IsWithin ∅ armValues) : node.nextHash = some node.merkleHash :=
  if_pos h.isNode

theorem TraceNode.IsWithin.merkleInput_region {next : TraceNode}
    (h : next.IsWithin ∅ armValues) (node : RegionNode) :
    (region node next).merkleInput = .region node.contentHash (some next.merkleHash) := by
  rw [← h.nextHash_eq, merkleInput]
  rintro last rfl
  exact absurd h (Set.notMem_empty _)

/-! ### Replays that look the same -/

section
variable {σ : Type}

/-- Two replays visit the same content hashes, end in the same way and leave the same
state. -/
structure SameVisits (o o' : Replayed σ) : Prop where
  visited : o.executed.map RegionNode.contentHash = o'.executed.map RegionNode.contentHash
  ending : o.ending = o'.ending
  state : o.state = o'.state

theorem SameVisits.refl (o : Replayed σ) : SameVisits o o := ⟨rfl, rfl, rfl⟩

variable {f g : σ → Replayed σ}

theorem SameVisits.andThen {o o' : Replayed σ} (h : SameVisits o o')
    (hrest : ∀ s, SameVisits (f s) (g s)) : SameVisits (o.andThen f) (o'.andThen g) := by
  by_cases hend : o.ending = .complete
  · have hend' : o'.ending = .complete := h.ending ▸ hend
    have hnext := hrest o.state
    rw [Replayed.andThen, Replayed.andThen, hend, hend', ← h.state]
    refine ⟨?_, hnext.ending, hnext.state⟩
    rw [map_append, map_append, h.visited, hnext.visited]
  · have hend' : o'.ending ≠ .complete := h.ending ▸ hend
    rw [Replayed.andThen_of_ne hend, Replayed.andThen_of_ne hend']
    exact h

theorem SameVisits.repeatBody (h : ∀ s, SameVisits (f s) (g s))
    (n : Nat) (s : σ) : SameVisits (Crucible.repeatBody f n s) (Crucible.repeatBody g n s) := by
  induction n generalizing s with
  | zero => exact .refl _
  | succ n ih => exact (h s).andThen ih

/-- The executor sees a region through its content hash. -/
def Replayer.ByHash (env : Replayer σ) : Prop :=
  ∀ node node' : RegionNode, node.contentHash = node'.contentHash →
    env.execRegion node = env.execRegion node'

def SameRun (env : Replayer σ) (a b : TraceNode) : Prop :=
  ∀ s, SameVisits (replay env a s) (replay env b s)

variable {env : Replayer σ}

variable {next next' body body' a b : TraceNode}

theorem SameRun.region (henv : env.ByHash) {node node' : RegionNode}
    (hhash : node.contentHash = node'.contentHash) (hnext : SameRun env next next') :
    SameRun env (.region node next) (.region node' next') := by
  intro s
  have hfir : SameVisits ({ executed := [node], state := env.execRegion node' s } : Replayed σ)
      { executed := [node'], state := env.execRegion node' s } :=
    ⟨congrArg (fun hash => [hash]) hhash, rfl, rfl⟩
  rw [replay, henv node node' hhash]
  exact hfir.andThen hnext

def SameArmRuns (env : Replayer σ) (arms arms' : Arms) : Prop :=
  Forall₂ (SameArm (Option.Rel fun run run' => ∀ s, SameVisits (run s) (run' s)))
    (replayArms env arms) (replayArms env arms')

theorem SameArmRuns.cons {value : Int} {target target' : TraceNode} {rest rest' : Arms}
    (hnode : target.isNode = true) (hnode' : target'.isNode = true)
    (htar : SameRun env target target') (hrest : SameArmRuns env rest rest') :
    SameArmRuns env (.cons value target rest) (.cons value target' rest') := by
  refine Forall₂.cons ⟨rfl, ?_⟩ hrest
  rw [if_pos hnode, if_pos hnode']
  exact .some htar

theorem SameRun.branch {guard : Guard} {arms arms' : Arms}
    (hval : arms.values = arms'.values) (harms : SameArmRuns env arms arms')
    (hnext : SameRun env next next') :
    SameRun env (.branch guard arms next) (.branch guard arms' next') := by
  intro s
  rw [replay, replay]
  generalize env.evalGuard guard s = answer
  obtain ⟨val, s⟩ := answer
  show SameVisits (if _ then _ else _) (if _ then _ else _)
  rw [hval]
  by_cases hsor : areArmsSortedByValue arms'.values
  · rw [if_pos hsor, if_pos hsor]
    have hsel := selectArm_rel harms val
    revert hsel
    generalize selectArm (replayArms env arms) val = arm
    generalize selectArm (replayArms env arms') val = arm'
    intro hsel
    cases hsel with
    | none => exact .refl _
    | some harm =>
      cases harm with
      | none => exact .refl _
      | some hrun => exact (hrun s).andThen hnext
  · rw [if_neg hsor, if_neg hsor]
    exact .refl _

theorem SameRun.loop {header : LoopHeader}
    (hnode : body.isNode = body'.isNode) (hbody : SameRun env body body')
    (hnext : SameRun env next next') :
    SameRun env (.loop header body next) (.loop header body' next') := by
  intro s
  have hwell : header.wellFormed body = header.wellFormed body' := by
    rw [LoopHeader.wellFormed, LoopHeader.wellFormed, hnode]
  rw [replay, replay, hwell]
  by_cases hok : header.wellFormed body'
  · rw [if_pos hok, if_pos hok]
    exact (SameVisits.repeatBody hbody _ s).andThen hnext
  · rw [if_neg hok, if_neg hok]
    exact .refl _

theorem SameRun.plainBody (henv : env.ByHash) :
    ∀ a b : TraceNode, a.IsPlainBody → b.IsPlainBody → a.regionHashes = b.regionHashes →
      SameRun env a b
  | .terminal _, .terminal _, _, _, _ => fun _ => .refl _
  | .region node next, .region node' next', ha, hb, h => by
    obtain ⟨hhash, hrest⟩ := cons.inj h
    exact .region henv hhash (plainBody henv next next' ha hb hrest)
  | .terminal _, .region _ _, ha, _, h => by
    rw [ha] at h
    cases h
  | .region _ _, .terminal _, _, hb, h => by
    rw [hb] at h
    cases h

theorem TraceNode.IsPlainBody.isNode (h : body.IsPlainBody) : body.isNode = true := by
  cases body with
  | null => exact h.elim
  | terminal next => rfl
  | region node next => rfl
  | branch guard arms next => exact h.elim
  | loop header body next => exact h.elim

/-! ### The comparison -/

variable {armValues : Guard → List Int} {xs ys : List TraceNode}

theorem NoCollision.sameBody (hno : NoCollision xs ys) (henv : env.ByHash) {header : LoopHeader}
    (ha : (loop header body next).IsWithin ∅ armValues)
    (hb : (loop header body' next').IsWithin ∅ armValues)
    (hx : loop header body next ∈ xs) (hy : loop header body' next' ∈ ys) :
    body.isNode = body'.isNode ∧ SameRun env body body' := by
  have hplain := ha.1.resolve_right fun h => Set.notMem_empty _ h.1
  have hplain' := hb.1.resolve_right fun h => Set.notMem_empty _ h.1
  refine ⟨hplain.isNode.trans hplain'.isNode.symm, ?_⟩
  exact .plainBody henv body body' hplain hplain'
    (hno.body _ _ _ _ _ _ hx hy (ha.2.1.symm.trans hb.2.1))

theorem NoCollision.input_eq (hno : NoCollision xs ys)
    (ha : a.IsWithin ∅ armValues) (hb : b.IsWithin ∅ armValues) (hx : a.nodes ⊆ xs)
    (hy : b.nodes ⊆ ys) (h : a.merkleHash = b.merkleHash) : a.merkleInput = b.merkleInput :=
  hno.merkle a (hx (mem_nodes_self ha.isNode)) b (hy (mem_nodes_self hb.isNode)) h

theorem identical_of_hash (ha : a.IsWithin ∅ armValues) (hb : b.IsWithin ∅ armValues)
    (h : a.nextHash = b.nextHash) (depth : Nat) : (dagDiff a b depth).kind = .identical := by
  rw [ha.nextHash_eq, hb.nextHash_eq] at h
  have hhash := Option.some.inj h
  cases a with
  | null => exact absurd ha (Set.notMem_empty _)
  | terminal _ | region _ _ | branch _ _ _ | loop _ _ _ =>
    cases b with
    | null => exact absurd hb (Set.notMem_empty _)
    | terminal _ | region _ _ | branch _ _ _ | loop _ _ _ => simp [dagDiff, hhash]

theorem armsDiff_of_hashes (mismatch : DagDiff) :
    ∀ arms arms' : Arms, arms.IsWithin ∅ armValues → arms'.IsWithin ∅ armValues →
      arms.values = arms'.values → arms.merkleHashes = arms'.merkleHashes →
      armsDiff mismatch arms arms' = none
  | .nil, _, _, _, _, _ => by simp [armsDiff]
  | .cons _ _ _, .nil, _, _, _, _ => by simp [armsDiff]
  | .cons _ target rest, .cons _ target' rest', ha, hb, hval, h => by
    obtain ⟨rfl, hvals⟩ := cons.inj hval
    obtain ⟨htar, hrest⟩ := cons.inj h
    have hsame := identical_of_hash ha.2.1 hb.2.1
      (by rw [ha.2.1.nextHash_eq, hb.2.1.nextHash_eq, htar]) (mismatch.depth + 1)
    have hothers := armsDiff_of_hashes mismatch rest rest' ha.2.2 hb.2.2 hvals hrest
    simp [armsDiff, hsame, hothers]

theorem eq_of_identical {p : Prop} [Decidable p] {depth : Nat} {diff : DagDiff}
    (hdiff : diff.kind ≠ .identical)
    (h : (if p then ({ depth } : DagDiff) else diff).kind = .identical) : p := by
  by_contra hp
  rw [if_neg hp] at h
  exact hdiff h

theorem armsDiff_ne_identical {mismatch diff : DagDiff} (hmis : mismatch.kind ≠ .identical) :
    ∀ arms arms' : Arms, armsDiff mismatch arms arms' = some diff → diff.kind ≠ .identical
  | .nil, _, h => by
    rw [armsDiff] at h
    · cases h
    · simp
  | .cons _ _ _, .nil, h => by
    rw [armsDiff] at h
    · cases h
    · simp
  | .cons value target rest, .cons value' target' rest', h => by
    rw [armsDiff] at h
    split at h
    case isTrue => exact Option.some.inj h ▸ hmis
    case isFalse =>
      simp only at h
      split at h
      case isTrue hkind => exact Option.some.inj h ▸ hkind
      case isFalse => exact armsDiff_ne_identical hmis rest rest' h

mutual

theorem NoCollision.sameRun (hno : NoCollision xs ys) (henv : env.ByHash) :
    ∀ (a b : TraceNode) (depth : Nat), a.IsWithin ∅ armValues → b.IsWithin ∅ armValues →
      a.nodes ⊆ xs → b.nodes ⊆ ys → (dagDiff a b depth).kind = .identical → SameRun env a b
  | .null, _, _, ha, _, _, _, _ => absurd ha (Set.notMem_empty _)
  | .terminal next, b, depth, ha, hb, hx, hy, h => by
    cases b with
    | null => exact absurd hb (Set.notMem_empty _)
    | terminal next' => exact fun s => .refl _
    | region node' next' =>
      have hinp := hno.input_eq ha hb hx hy (eq_of_identical (by simp) h)
      rw [IsWithin] at hb
      rw [hb.merkleInput_region] at hinp
      cases hinp
    | branch _ _ _ | loop _ _ _ =>
      cases hno.input_eq ha hb hx hy (eq_of_identical (by simp) h)
  | .region node next, b, depth, ha, hb, hx, hy, h => by
    have hinp := hno.input_eq ha hb hx hy
    rw [IsWithin] at ha
    rw [ha.merkleInput_region] at hinp
    cases b with
    | null => exact absurd hb (Set.notMem_empty _)
    | terminal _ | branch _ _ _ | loop _ _ _ => cases hinp (eq_of_identical (by simp) h)
    | region node' next' =>
      rw [IsWithin] at hb
      obtain ⟨hhash, hnext⟩ : node.contentHash = node'.contentHash ∧
          (dagDiff next next' (depth + 1)).kind = .identical := by
        by_cases hsame : (region node next).merkleHash = (region node' next').merkleHash
        · rw [hb.merkleInput_region, ← ha.nextHash_eq, ← hb.nextHash_eq] at hinp
          obtain ⟨hhash, hnext⟩ := MerkleInput.region.inj (hinp hsame)
          exact ⟨hhash, identical_of_hash ha hb hnext _⟩
        · simp only [dagDiff, if_neg hsame] at h
          split at h
          case isTrue => cases h
          case isFalse hcon => exact ⟨not_not.mp hcon, h⟩
      rw [nodes, cons_subset] at hx hy
      exact .region henv hhash (hno.sameRun henv next next' (depth + 1) ha hb hx.2 hy.2 hnext)
  | .branch guard arms next, b, depth, ha, hb, hx, hy, h => by
    have hinp := hno.input_eq ha hb hx hy
    cases b with
    | null => exact absurd hb (Set.notMem_empty _)
    | terminal _ | loop _ _ _ => cases hinp (eq_of_identical (by simp) h)
    | region node' next' =>
      rw [IsWithin] at hb
      rw [hb.merkleInput_region] at hinp
      cases hinp (eq_of_identical (by simp) h)
    | branch guard' arms' next' =>
      obtain ⟨hval, harms, hcov⟩ := ha
      obtain ⟨hval', harms', hcov'⟩ := hb
      have hval := hval.resolve_right (Set.notMem_empty _)
      have hval' := hval'.resolve_right (Set.notMem_empty _)
      obtain ⟨rfl, hlen, mismatch, hdiff, hnext⟩ : guard = guard' ∧
          arms.values.length = arms'.values.length ∧ ∃ mismatch,
            armsDiff mismatch arms arms' = none ∧
              (dagDiff next next' (depth + 1)).kind = .identical := by
        by_cases hsame : (branch guard arms next).merkleHash =
            (branch guard' arms' next').merkleHash
        · obtain ⟨rfl, hhas, hnext⟩ := MerkleInput.branch.inj (hinp hsame)
          have heq := hval.trans hval'.symm
          exact ⟨rfl, congrArg length heq, {}, armsDiff_of_hashes _ _ _ harms harms' heq hhas,
            identical_of_hash hcov hcov' hnext _⟩
        · simp only [dagDiff, if_neg hsame] at h
          split at h
          case isTrue => cases h
          case isFalse heq =>
            rw [not_or, not_not, not_not] at heq
            split at h
            case h_1 diff hdiff =>
              exact absurd h (armsDiff_ne_identical (by simp) arms arms' hdiff)
            case h_2 hdiff =>
              exact ⟨hno.guard _ _ _ _ _ _ (hx (mem_nodes_self rfl)) (hy (mem_nodes_self rfl)) heq.1,
                heq.2, _, hdiff, h⟩
      rw [nodes, cons_subset, append_subset] at hx hy
      refine .branch (hval.trans hval'.symm) ?_ ?_
      · exact hno.sameArmRuns henv arms arms' mismatch harms harms' hx.2.1 hy.2.1 hlen hdiff
      · exact hno.sameRun henv next next' (depth + 1) hcov hcov' hx.2.2 hy.2.2 hnext
  | .loop header body next, b, depth, ha, hb, hx, hy, h => by
    have hinp := hno.input_eq ha hb hx hy
    cases b with
    | null => exact absurd hb (Set.notMem_empty _)
    | terminal _ | branch _ _ _ => cases hinp (eq_of_identical (by simp) h)
    | region node' next' =>
      rw [IsWithin] at hb
      rw [hb.merkleInput_region] at hinp
      cases hinp (eq_of_identical (by simp) h)
    | loop header' body' next' =>
      obtain ⟨rfl, hnext⟩ : header = header' ∧
          (dagDiff next next' (depth + 1)).kind = .identical := by
        by_cases hsame : (loop header body next).merkleHash = (loop header' body' next').merkleHash
        · obtain ⟨rfl, hnext⟩ := MerkleInput.loop.inj (hinp hsame)
          exact ⟨rfl, identical_of_hash ha.2.2 hb.2.2 hnext _⟩
        · simp only [dagDiff, if_neg hsame] at h
          split at h
          case isTrue => cases h
          case isFalse heq =>
            split at h
            case isTrue hbody => exact absurd h hbody
            case isFalse => exact ⟨not_not.mp heq, h⟩
      have hbody := hno.sameBody henv ha hb (hx (mem_nodes_self rfl)) (hy (mem_nodes_self rfl))
      rw [nodes, cons_subset, append_subset] at hx hy
      exact .loop hbody.1 hbody.2
        (hno.sameRun henv next next' (depth + 1) ha.2.2 hb.2.2 hx.2.2 hy.2.2 hnext)

theorem NoCollision.sameArmRuns (hno : NoCollision xs ys) (henv : env.ByHash) :
    ∀ (arms arms' : Arms) (mismatch : DagDiff), arms.IsWithin ∅ armValues →
      arms'.IsWithin ∅ armValues → arms.nodes ⊆ xs → arms'.nodes ⊆ ys →
      arms.values.length = arms'.values.length → armsDiff mismatch arms arms' = none →
      SameArmRuns env arms arms'
  | .nil, .nil, _, _, _, _, _, _, _ => .nil
  | .nil, .cons _ _ _, _, _, _, _, _, hlen, _ => nomatch hlen
  | .cons _ _ _, .nil, _, _, _, _, _, hlen, _ => nomatch hlen
  | .cons value target rest, .cons value' target' rest', mismatch, ha, hb, hx, hy, hlen, h => by
    rw [armsDiff] at h
    split at h
    case isTrue => cases h
    case isFalse hval =>
      obtain rfl := not_not.mp hval
      simp only at h
      split at h
      case isTrue => cases h
      case isFalse htar =>
        rw [Arms.nodes, append_subset] at hx hy
        refine .cons ha.1 hb.1 ?_ ?_
        · exact hno.sameRun henv target target' _ ha.2.1 hb.2.1 hx.1 hy.1 (not_not.mp htar)
        · exact hno.sameArmRuns henv rest rest' mismatch ha.2.2 hb.2.2 hx.2 hy.2
            (Nat.succ.inj hlen) h

end

end

/-! ### Which traces their hashes determine -/

/-- Two traces with some features that are identical to `dag_diff`, with no collision of
two folds, and that one replayer tells apart. -/
structure Unseen (features : Set TraceFeature) (armValues : Guard → List Int)
    (a b : TraceNode) : Prop where
  left : a.IsWithin features armValues
  right : b.IsWithin features armValues
  noCollision : NoCollision a.nodes b.nodes
  identical : (dagDiff a b 0).kind = .identical
  differ : ∃ val, ¬ SameVisits (replay (constantGuards val) a ()) (replay (constantGuards val) b ())

theorem constantGuards_byHash (val : Int) : (constantGuards val).ByHash := fun _ _ _ => rfl

theorem selectArm_singleton {α : Type} (value val : Int) (x : α) :
    selectArm [(value, x)] val = if value = val then some x else none := by
  have hemp : ∀ lo, armSearch [(value, x)] val lo lo = none := by
    intro lo
    rw [armSearch, if_neg (lt_irrefl lo)]
  show armSearch [(value, x)] val 0 1 = _
  rw [armSearch]
  show (if value < val then armSearch _ val 1 1 else if val < value then armSearch _ val 0 0
    else some x) = _
  rw [hemp, hemp]
  split
  case isTrue hlt => rw [if_neg (by omega)]
  case isFalse hge =>
    split
    case isTrue hgt => rw [if_neg (by omega)]
    case isFalse hle => rw [if_pos (by omega)]

/-- Two regions that end an open chain. -/
def openPair (first last : Nat) : TraceNode :=
  .region { contentHash := first, ops := [] } (.region { contentHash := last, ops := [] } .null)

variable {features : Set TraceFeature}

theorem openPair_unseen (h : .openEnds ∈ features)
    (armValues : Guard → List Int) : Unseen features armValues (openPair 1 2) (openPair 2 1) where
  left := by simpa [openPair, IsWithin] using h
  right := by simpa [openPair, IsWithin] using h
  noCollision := by
    refine ⟨by decide +kernel, ?_, ?_⟩
    · intro guard arms next guard' arms' next' hx
      simp [openPair, nodes] at hx
    · intro header body next header' body' next' hx
      simp [openPair, nodes] at hx
  identical := by decide +kernel
  differ := by
    refine ⟨0, fun hsame => ?_⟩
    exact absurd hsame.visited (by decide)

def oneArm (value : Int) : TraceNode :=
  .branch {} (.cons value (.terminal .null) .nil) (.terminal .null)

theorem replay_oneArm (value val : Int) : replay (constantGuards val) (oneArm value) () =
    if value = val then { state := () } else { ending := .unseen, state := () } := by
  simp only [oneArm, replay, replayArms, constantGuards, Arms.values, areArmsSortedByValue,
    selectArm_singleton, isNode, if_true]
  by_cases h : value = val
  · rw [if_pos h, if_pos h]
    rfl
  · rw [if_neg h, if_neg h]

theorem oneArm_unseen (h : .freeArms ∈ features)
    (armValues : Guard → List Int) : Unseen features armValues (oneArm 1) (oneArm 2) where
  left := by simp [oneArm, IsWithin, Arms.IsWithin, isNode, h]
  right := by simp [oneArm, IsWithin, Arms.IsWithin, isNode, h]
  noCollision := by
    refine ⟨by decide +kernel, ?_, ?_⟩
    · intro guard arms next guard' arms' next' hx hy _
      simp only [oneArm, nodes, Arms.nodes, mem_cons, mem_append,
        branch.injEq, not_mem_nil, reduceCtorEq, or_false] at hx hy
      exact hx.1.trans hy.1.symm
    · intro header body next header' body' next' hx
      simp [oneArm, nodes, Arms.nodes] at hx
  identical := by decide +kernel
  differ := by
    refine ⟨1, fun hsame => ?_⟩
    rw [replay_oneArm, replay_oneArm] at hsame
    exact absurd hsame.ending (by decide)

/-- A loop that runs once around a region and then `rest`. -/
def loopAround (rest : TraceNode) : TraceNode :=
  let body := TraceNode.region { contentHash := 1, ops := [] } rest
  .loop { bodyContentHash := computeBodyContentHash body, repeatCount := 1 } body (.terminal .null)

theorem Replayed.ending_andThen {σ : Type} (o : Replayed σ) (rest : σ → Replayed σ) :
    (o.andThen rest).ending =
      if o.ending = .complete then (rest o.state).ending else o.ending := by
  by_cases h : o.ending = .complete
  · rw [if_pos h, andThen, h]
  · rw [if_neg h, andThen_of_ne h]

theorem replay_loopAround (val : Int) (rest : TraceNode) :
    (replay (constantGuards val) (loopAround rest) ()).ending =
      (replay (constantGuards val) rest ()).ending := by
  have hwell : ∀ hash, LoopHeader.wellFormed { bodyContentHash := hash, repeatCount := 1 }
      (.region ⟨1, []⟩ rest) = true := fun _ => rfl
  simp only [loopAround, replay, hwell, if_true, repeatBody, Replayed.ending_andThen]
  split
  case isTrue hend => exact hend.symm
  case isFalse => rfl

theorem loopAround_unseen (h : .nestedBodies ∈ features) :
    Unseen features (fun _ => [1]) (loopAround (oneArm 1)) (loopAround (.terminal .null)) where
  left := by
    simp [loopAround, oneArm, IsWithin, Arms.IsWithin, Arms.values, isNode, h]
  right := by simp [loopAround, IsWithin, IsPlainBody]
  noCollision := by
    refine ⟨by decide +kernel, ?_, ?_⟩
    · intro guard arms next guard' arms' next' hx hy
      simp [loopAround, nodes] at hy
    · intro header body next header' body' next' hx hy _
      simp only [loopAround, oneArm, nodes, Arms.nodes, mem_cons, mem_append,
        loop.injEq, not_mem_nil, reduceCtorEq, or_false] at hx hy
      rw [hx.2.1, hy.2.1]
      rfl
  identical := by decide +kernel
  differ := by
    refine ⟨2, fun hsame => ?_⟩
    have hend := hsame.ending
    rw [replay_loopAround, replay_oneArm] at hend
    exact absurd hend (by decide)

/-- **Which traces `dag_diff` can tell apart.**  For traces with some of the features, an
answer of identical without a collision of two folds means the same visits and the same
result under every guard evaluator, if and only if there are no such features. -/
theorem dagDiff_identical_iff (features : Set TraceFeature) :
    (∀ (armValues : Guard → List Int) (a b : TraceNode),
      a.IsWithin features armValues → b.IsWithin features armValues →
      NoCollision a.nodes b.nodes → (dagDiff a b 0).kind = .identical →
      ∀ (σ : Type) (env : Replayer σ), env.ByHash →
        ∀ s, SameVisits (replay env a s) (replay env b s)) ↔
    features = ∅ := by
  constructor
  · intro hall
    have hunseen : ∀ armValues a b, ¬ Unseen features armValues a b := by
      intro armValues a b hab
      obtain ⟨val, hdiffer⟩ := hab.differ
      exact hdiffer (hall armValues a b hab.left hab.right hab.noCollision hab.identical Unit
        (constantGuards val) (constantGuards_byHash val) ())
    apply Set.eq_empty_of_forall_notMem
    intro feature hfeature
    cases feature with
    | openEnds => exact hunseen _ _ _ (openPair_unseen hfeature fun _ => [])
    | freeArms => exact hunseen _ _ _ (oneArm_unseen hfeature fun _ => [])
    | nestedBodies => exact hunseen _ _ _ (loopAround_unseen hfeature)
  · rintro rfl armValues a b ha hb hno hdiff σ env henv
    exact hno.sameRun henv a b 0 ha hb (List.Subset.refl _) (List.Subset.refl _) hdiff

/-- Three pairs of traces that `dag_diff` takes for identical, without a collision of two
folds, and that replay differently: the last two regions of an open chain change places,
an arm has another value, and a loop body loses a branch. -/
theorem identical_traces_differ : Unseen {.openEnds} (fun _ => []) (openPair 1 2) (openPair 2 1) ∧
      Unseen {.freeArms} (fun _ => []) (oneArm 1) (oneArm 2) ∧
      Unseen {.nestedBodies} (fun _ => [1]) (loopAround (oneArm 1))
        (loopAround (.terminal .null)) := by
  refine ⟨openPair_unseen (Set.mem_singleton _) _, oneArm_unseen (Set.mem_singleton _) _, ?_⟩
  exact loopAround_unseen (Set.mem_singleton _)

end Crucible
