import Crucible.TraceDag

/-! # Adding a branch to a trace

`add_branch` turns a divergence into a branch with two arms, the old continuation and a
new region, that rejoin at the node `find_merge_point` finds.  A replay runs the shared suffix
inside the new region, again after it, and once more after the branch.  It runs what it should
exactly when the new ops share no tail with the suffix, up to chains that never come to their
end.
-/
namespace Crucible
open List

/-! ### The construction -/

/-- The contract on a recipe: interned, and not the end-of-region marker. -/
def validRecipe : Option Nat → Bool
  | none => true
  | some hash => hash ≠ 0 && hash ≠ u64Max

def makeRegion (ops : List TraceEntry) (recipe : Option Nat) : Except Fault RegionNode := do
  let contentHash ← computeContentHash ops recipe
  if ops ≠ [] ∧ contentHash = 0 then .error .contract
  else .ok { contentHash, ops }

/-- `MAX_REGIONS` of `find_merge_point`. -/
def maxRegions : Nat := 1024

def leadingRegions : Nat → TraceNode → List (RegionNode × TraceNode)
  | n + 1, .region node next => (node, .region node next) :: leadingRegions n next
  | _, _ => []

/-- The loop of `find_merge_point`, over the regions from the last one on. -/
def mergeLoop (newOps : List TraceEntry) (recipe : Option Nat) :
    List (RegionNode × TraceNode) → Nat → TraceNode → Except Fault TraceNode
  | [], _, merge => .ok merge
  | (region, node) :: rest, newPos, merge =>
    if newPos = 0 ∨ newPos < region.ops.length then .ok merge
    else do
      let start := newPos - region.ops.length
      let newHash ← computeContentHash ((newOps.drop start).take region.ops.length) recipe
      if newHash = region.contentHash then mergeLoop newOps recipe rest start node
      else .ok merge

def findMergePoint (newOps : List TraceEntry) (continuation : TraceNode) (recipe : Option Nat) :
    Except Fault TraceNode :=
  if validRecipe recipe then
    mergeLoop newOps recipe (leadingRegions maxRegions continuation).reverse newOps.length .null
  else .error .contract

def branchArms (oldValue newValue : Int) (old new : TraceNode) : Arms :=
  if oldValue ≤ newValue then .cons oldValue old (.cons newValue new .nil)
  else .cons newValue new (.cons oldValue old .nil)

/-- `add_branch`.  The kernel that the cache may hold for the new region is not part of
what replays. -/
def addBranch (divergence : TraceNode) (newOps : List TraceEntry) (oldValue newValue : Int)
    (guard : Guard) (suffix : TraceNode) (recipe : Option Nat) : Except Fault TraceNode :=
  if divergence.isNode && oldValue ≠ newValue && validRecipe recipe then do
    let region ← makeRegion newOps recipe
    let merge ← findMergePoint newOps suffix recipe
    .ok (.branch guard (branchArms oldValue newValue divergence (.region region merge)) merge)
  else .error .contract

variable {merge : TraceNode} {newOps : List TraceEntry} {recipe : Option Nat} {region : RegionNode}

theorem addBranch_ok {divergence suffix branch : TraceNode}
    {oldValue newValue : Int} {guard : Guard}
    (h : addBranch divergence newOps oldValue newValue guard suffix recipe = .ok branch)
    (hreg : makeRegion newOps recipe = .ok region)
    (hmer : findMergePoint newOps suffix recipe = .ok merge) :
    divergence.isNode ∧ oldValue ≠ newValue ∧ branch = .branch guard
      (branchArms oldValue newValue divergence (.region region merge)) merge := by
  rw [addBranch, hreg, hmer] at h
  split at h
  case isFalse => cases h
  case isTrue hpre =>
    simp only [Bool.and_eq_true, decide_eq_true_eq] at hpre
    exact ⟨hpre.1.1, hpre.1.2, (Except.ok.inj h).symm⟩

theorem makeRegion_ops {ops : List TraceEntry}
    (h : makeRegion ops recipe = .ok region) : region.ops = ops := by
  obtain ⟨hash, -, h⟩ := bind_ok h
  split at h
  case isTrue => cases h
  case isFalse => exact (congrArg RegionNode.ops (Except.ok.inj h)).symm

/-! ### Its replays -/

theorem selectArm_pair {α : Type} {v w : Int} (h : v < w) (x y : α) :
    selectArm [(v, x), (w, y)] v = some x ∧ selectArm [(v, x), (w, y)] w = some y := by
  have hne : ¬ w < v := by omega
  constructor
  · show armSearch _ v 0 2 = _
    rw [armSearch]
    show (if w < v then _ else if v < w then armSearch _ v 0 1 else _) = _
    rw [if_neg hne, if_pos h, armSearch]
    show (if v < v then _ else if v < v then _ else some x) = _
    rw [if_neg (Int.lt_irrefl v), if_neg (Int.lt_irrefl v)]
  · show armSearch _ w 0 2 = _
    rw [armSearch]
    show (if w < w then _ else if w < w then _ else some y) = _
    rw [if_neg (Int.lt_irrefl w), if_neg (Int.lt_irrefl w)]

section
variable {σ : Type} {env : Replayer σ} {old new merge : TraceNode} {oldValue newValue : Int}
variable {guard : Guard} {s s' : σ}

/-- The new branch routes the old value to the old continuation, and the new value to the
new region. -/
theorem replay_arm {value : Int} {target : TraceNode} (hne : oldValue ≠ newValue)
    (harm : value = oldValue ∧ target = old ∨ value = newValue ∧ target = new)
    (hnode : target.isNode) (hguard : env.evalGuard guard s = (value, s')) :
    replay env (.branch guard (branchArms oldValue newValue old new) merge) s =
      (replay env target s').andThen (replay env merge) := by
  rw [replay, hguard, branchArms]
  by_cases hle : oldValue ≤ newValue
  · have hlt : oldValue < newValue := by omega
    obtain ⟨rfl, rfl⟩ | ⟨rfl, rfl⟩ := harm <;>
      simp only [if_pos hle, Arms.values, areArmsSortedByValue, decide_eq_true hle, replayArms,
        selectArm_pair hlt, hnode] <;> rfl
  · have hlt : newValue < oldValue := by omega
    obtain ⟨rfl, rfl⟩ | ⟨rfl, rfl⟩ := harm <;>
      simp only [if_neg hle, Arms.values, areArmsSortedByValue, decide_eq_true (Int.le_of_lt hlt),
        replayArms, selectArm_pair hlt, hnode] <;> rfl

end

/-- No replay from the node on runs an op. -/
def TraceNode.Silent (node : TraceNode) : Prop :=
  ∀ (σ : Type) (env : Replayer σ) (s : σ), (replay env node s).ops = []

/-- Some replay walks the node to its end. -/
def TraceNode.Completes (node : TraceNode) : Prop :=
  ∃ (σ : Type) (env : Replayer σ) (s : σ), (replay env node s).ending = .complete

variable {σ : Type}

theorem replay_region_ops (env : Replayer σ) (node : RegionNode) (next : TraceNode)
    (s : σ) : (replay env (.region node next) s).ops =
      node.ops ++ (replay env next (env.execRegion node s)).ops := by
  rw [replay, Replayed.ops_andThen]
  exact congrArg (· ++ _) (flatMap_singleton ..)

theorem mergeLoop_cases {result : TraceNode}
    {regions : List (RegionNode × TraceNode)} {newPos : Nat}
    (hreg : ∀ p ∈ regions, ∃ next, p.2 = .region p.1 next)
    (hmer : merge = .null ∨ ∃ node next, merge = .region node next)
    (h : mergeLoop newOps recipe regions newPos merge = .ok result) :
    result = .null ∨ ∃ node next, result = .region node next := by
  induction regions generalizing newPos merge with
  | nil => exact Except.ok.inj h ▸ hmer
  | cons p rest ih =>
    obtain ⟨region, node⟩ := p
    obtain ⟨next, hnode⟩ := hreg _ mem_cons_self
    rw [mergeLoop] at h
    split at h
    case isTrue => exact Except.ok.inj h ▸ hmer
    case isFalse =>
      obtain ⟨newHash, -, h⟩ := bind_ok h
      split at h
      case isTrue =>
        exact ih (fun p hp => hreg p (mem_cons_of_mem _ hp)) (.inr ⟨region, next, hnode⟩) h
      case isFalse => exact Except.ok.inj h ▸ hmer

theorem leadingRegions_region {n : Nat} {chain : TraceNode} {p : RegionNode × TraceNode}
    (h : p ∈ leadingRegions n chain) : ∃ next, p.2 = .region p.1 next := by
  induction n generalizing chain with
  | zero => exact absurd h (by simp [leadingRegions])
  | succ n ih =>
    cases chain with
    | region node next =>
      rcases mem_cons.mp h with rfl | h
      · exact ⟨next, rfl⟩
      · exact ih h
    | null | terminal _ | branch _ _ _ | loop _ _ _ => exact absurd h not_mem_nil

theorem findMergePoint_cases {continuation : TraceNode}
    (h : findMergePoint newOps continuation recipe = .ok merge) :
    merge = .null ∨ ∃ node next, merge = .region node next := by
  rw [findMergePoint] at h
  split at h
  case isTrue =>
    refine mergeLoop_cases (fun p hp => ?_) (.inl rfl) h
    exact leadingRegions_region (mem_reverse.mp hp)
  case isFalse => cases h

/-- A state with steps before it: the guard of the branch, and the new region. -/
inductive Staged (σ : Type) where
  | atGuard
  | atRegion
  | run (s : σ)

/-- The replayer that answers `val` to the first guard and goes to the stage `first`.  It
lets a region pass at `atRegion`, and then acts as `env` from `start` on. -/
def Replayer.staged {σ : Type} (env : Replayer σ) (val : Int) (first : Staged σ) (start : σ) :
    Replayer (Staged σ) where
  evalGuard guard
    | .atGuard => (val, first)
    | .atRegion => (val, .atRegion)
    | .run s => ((env.evalGuard guard s).1, .run (env.evalGuard guard s).2)
  execRegion node
    | .atGuard => .atGuard
    | .atRegion => .run start
    | .run s => .run (env.execRegion node s)

theorem Replayer.staged_replay (env : Replayer σ) (val : Int) (first : Staged σ)
    (start : σ) (node : TraceNode) (s : σ) :
    replay (env.staged val first start) node (.run s) = (replay env node s).map .run := by
  have hfol : (env.staged val first start).Follows env .run :=
    ⟨fun _ _ => rfl, fun _ _ => rfl⟩
  exact hfol.replay node s

/-! ### What the branch runs -/

theorem Replayed.andThen_null (env : Replayer σ) (o : Replayed σ) :
    o.andThen (replay env .null) = o := by
  obtain ⟨executed, ending, state⟩ := o
  cases ending with
  | complete => exact congrArg (Replayed.mk · .complete state) (append_nil executed)
  | unseen => rfl
  | fault => rfl

theorem executed_ne_nil {env : Replayer σ} {node : TraceNode} {s : σ}
    (h : ∃ region next, node = .region region next) : (replay env node s).executed ≠ [] := by
  obtain ⟨region, next, rfl⟩ := h
  exact cons_ne_nil _ _

/-- What runs before a merge node stays the same with the merge node after it only when it
never comes to its end, or nothing runs from the merge node on. -/
theorem Replayed.ending_ne_of_executed {env : Replayer σ}
    {o : Replayed σ} (hmer : ∃ region next, merge = .region region next)
    (h : (o.andThen (replay env merge)).executed = o.executed) : o.ending ≠ .complete := by
  intro hcom
  rw [executed_andThen hcom] at h
  exact executed_ne_nil hmer (append_cancel_left (h.trans (append_nil _).symm))

/-- **When a replay of the new branch runs the right ops.**  For every replayer the
branch runs exactly the new ops on the new value, with the shared suffix run once, and
the regions of the old continuation on the old value, if and only if the new ops share no
tail with the suffix.  The other case is that nothing at the merge node runs an op, and
that neither it nor the old continuation is ever replayed to its end. -/
theorem addBranch_replays_iff {divergence suffix branch merge : TraceNode}
    {newOps : List TraceEntry} {oldValue newValue : Int} {guard : Guard} {recipe : Option Nat}
    {region : RegionNode}
    (hbranch : addBranch divergence newOps oldValue newValue guard suffix recipe = .ok branch)
    (hregion : makeRegion newOps recipe = .ok region)
    (hmerge : findMergePoint newOps suffix recipe = .ok merge) :
    (∀ (σ : Type) (env : Replayer σ) (s : σ),
      ((env.evalGuard guard s).1 = newValue → (replay env branch s).ops = newOps ∧
        (replay env branch s).executed =
          (replay env (.region region merge) (env.evalGuard guard s).2).executed) ∧
      ((env.evalGuard guard s).1 = oldValue → (replay env branch s).executed =
        (replay env divergence (env.evalGuard guard s).2).executed)) ↔
    merge = .null ∨ merge.Silent ∧ ¬ merge.Completes ∧ ¬ divergence.Completes := by
  obtain ⟨hdivergence, hne, rfl⟩ := addBranch_ok hbranch hregion hmerge
  have hops := makeRegion_ops hregion
  constructor
  · intro hall
    refine (findMergePoint_cases hmerge).imp_right fun hnode => ⟨?_, ?_, ?_⟩
    · -- The new value runs the new ops, and whatever the merge node runs comes on top.
      intro σ env s
      obtain ⟨hnew, -⟩ := (hall _ (env.staged newValue .atRegion s) .atGuard).1 rfl
      rw [replay_arm hne (.inr ⟨rfl, rfl⟩) rfl rfl, Replayed.ops_andThen, replay_region_ops, hops,
        append_assoc] at hnew
      have hrest := append_cancel_left (hnew.trans (append_nil newOps).symm)
      have hnone := (append_eq_nil_iff.mp hrest).1
      change (replay (env.staged newValue .atRegion s) merge (.run s)).ops = [] at hnone
      rwa [env.staged_replay] at hnone
    · -- A merge node that comes to its end is walked again after the branch.
      rintro ⟨σ, env, s, hcomplete⟩
      obtain ⟨-, honce⟩ := (hall _ (env.staged newValue .atRegion s) .atGuard).1 rfl
      rw [replay_arm hne (.inr ⟨rfl, rfl⟩) rfl rfl] at honce
      refine Replayed.ending_ne_of_executed hnode honce ?_
      change (replay (env.staged newValue .atRegion s) merge (.run s)).ending = _
      rw [env.staged_replay]
      exact hcomplete
    · -- The merge node comes after the old continuation.
      rintro ⟨σ, env, s, hcomplete⟩
      have hold := (hall _ (env.staged oldValue (.run s) s) .atGuard).2 rfl
      rw [replay_arm hne (.inl ⟨rfl, rfl⟩) hdivergence rfl] at hold
      refine Replayed.ending_ne_of_executed hnode hold ?_
      rw [env.staged_replay]
      exact hcomplete
  · rintro hcases σ env s
    refine ⟨fun hval => ?_, fun hval => ?_⟩
    · rw [replay_arm hne (.inr ⟨rfl, rfl⟩) rfl (Prod.ext hval rfl)]
      rcases hcases with rfl | ⟨hsilent, hmergeEnds, -⟩
      · rw [Replayed.andThen_null, replay_region_ops, hops]
        exact ⟨append_nil newOps, rfl⟩
      · have hend : (replay env (.region region merge) (env.evalGuard guard s).2).ending ≠
            .complete := by
          exact fun hend => hmergeEnds ⟨σ, env, _, hend⟩
        rw [Replayed.andThen_of_ne hend, replay_region_ops, hsilent, hops, append_nil]
        exact ⟨rfl, rfl⟩
    · rw [replay_arm hne (.inl ⟨rfl, rfl⟩) hdivergence (Prod.ext hval rfl)]
      rcases hcases with rfl | ⟨-, -, holdEnds⟩
      · rw [Replayed.andThen_null]
      · rw [Replayed.andThen_of_ne fun hend => holdEnds ⟨σ, env, _, hend⟩]

def regionOf (ops : List TraceEntry) : RegionNode :=
  { contentHash := fmix64 (ops.foldl foldEntry goldenRatio), ops }

def bareOp (schema : Nat) : TraceEntry := .ofWords schema [] 0 []

/-- The continuation `3; 2` diverges into `1; 2`, and the two share the region of op `2`. -/
def sharedSuffix : TraceNode := .region (regionOf [bareOp 2]) .null
def sharedDivergence : TraceNode := .region (regionOf [bareOp 3]) sharedSuffix

theorem makeRegion_one_two :
    makeRegion [bareOp 1, bareOp 2] none = .ok (regionOf [bareOp 1, bareOp 2]) := by
  decide +kernel

theorem findMergePoint_one {first last : TraceEntry} {hash : Nat}
    (hlen : region.ops.length = 1) (hhash : computeContentHash [last] none = .ok hash) :
    findMergePoint [first, last] (.region region .null) none =
      if hash = region.contentHash then .ok (.region region .null) else .ok .null := by
  have hval : validRecipe none = true := rfl
  have hreg : (leadingRegions maxRegions (.region region .null)).reverse =
      [(region, .region region .null)] := rfl
  have htwo : [first, last].length = 2 := rfl
  have htail : ([first, last].drop (2 - 1)).take 1 = [last] := rfl
  rw [findMergePoint, if_pos hval, hreg, mergeLoop, hlen, htwo, if_neg (by decide)]
  simp only [htail, hhash]
  rfl

theorem computeContentHash_regionOf (ops : List TraceEntry) :
    computeContentHash ops none = .ok (regionOf ops).contentHash := rfl

/-- The shared suffix runs three times on the new value, and twice on the old one. -/
theorem shared_suffix_repeats :
    ∃ branch, addBranch sharedDivergence [bareOp 1, bareOp 2] 0 1 {} sharedSuffix none =
        .ok branch ∧
      (replay (constantGuards 1) branch ()).ops = [bareOp 1, bareOp 2, bareOp 2, bareOp 2] ∧
      (replay (constantGuards 0) branch ()).ops = [bareOp 3, bareOp 2, bareOp 2] ∧
      (replay (constantGuards 0) sharedDivergence ()).ops = [bareOp 3, bareOp 2] := by
  refine ⟨.branch {} (branchArms 0 1 sharedDivergence
    (.region (regionOf [bareOp 1, bareOp 2]) sharedSuffix)) sharedSuffix, ?_, ?_, ?_, rfl⟩
  · rw [addBranch, makeRegion_one_two, sharedSuffix,
      findMergePoint_one rfl (computeContentHash_regionOf _),
      if_pos rfl]
    rfl
  · have hguard : (constantGuards 1).evalGuard {} () = (1, ()) := rfl
    rw [replay_arm (by decide) (.inr ⟨rfl, rfl⟩) rfl hguard]
    rfl
  · have hguard : (constantGuards 0).evalGuard {} () = (0, ()) := rfl
    rw [replay_arm (by decide) (.inl ⟨rfl, rfl⟩) rfl hguard]
    rfl

/-- Ops that share no tail with the suffix: the branch runs what it should. -/
theorem addBranch_replays_unshared :
    ∃ branch, addBranch sharedDivergence [bareOp 1, bareOp 4] 0 1 {} sharedSuffix none =
        .ok branch ∧
      (replay (constantGuards 1) branch ()).ops = [bareOp 1, bareOp 4] := by
  have hregion : makeRegion [bareOp 1, bareOp 4] none = .ok (regionOf [bareOp 1, bareOp 4]) := by
    decide +kernel
  have hdiffers : (regionOf [bareOp 4]).contentHash ≠ (regionOf [bareOp 2]).contentHash := by
    decide +kernel
  have hmerge : findMergePoint [bareOp 1, bareOp 4] sharedSuffix none = .ok .null := by
    rw [sharedSuffix, findMergePoint_one rfl (computeContentHash_regionOf _), if_neg hdiffers]
  have hbranch : addBranch sharedDivergence [bareOp 1, bareOp 4] 0 1 {} sharedSuffix none =
      .ok (.branch {} (branchArms 0 1 sharedDivergence
        (.region (regionOf [bareOp 1, bareOp 4]) .null)) .null) := by
    rw [addBranch, hregion, hmerge]
    rfl
  have hright := (addBranch_replays_iff hbranch hregion hmerge).mpr (.inl rfl)
  exact ⟨_, hbranch, ((hright Unit (constantGuards 1) ()).1 rfl).1⟩

end Crucible
