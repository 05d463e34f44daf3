import Crucible.ContentHash

/-! # Trace DAGs and their replay

A trace is a chain of nodes: regions, branches that a guard routes to one of their
arms, loops around a body, and terminals.  `replay` walks a chain, runs the regions on
it, and falls back to recording at a guard value that no arm has.  A node is modelled with
everything below it.  The guard evaluator and the region executor are arbitrary programs over
a state.
-/
namespace Crucible

/-! ### Nodes -/

/-- `Guard::Kind`. -/
inductive GuardKind where
  | shapeDim | scalarValue | dtype | device | opSequence
deriving DecidableEq

/-- `Guard`.  The none value of the op index is `u32Max`. -/
structure Guard where
  kind : GuardKind := .shapeDim
  opIndex : Nat := u32Max
  argIndex : Nat := 0
  dimIndex : Nat := 0
deriving DecidableEq

/-- The part of `RegionNode` that replays and compares. -/
structure RegionNode where
  contentHash : Nat
  ops : List TraceEntry
deriving DecidableEq

inductive LoopTermKind where
  | repeatTerm | untilTerm
deriving DecidableEq

structure FeedbackEdge where
  outputIdx : Nat
  inputIdx : Nat
deriving DecidableEq

/-- The fields of `LoopNode` beside its body.  `epsilon` is the bit pattern. -/
structure LoopHeader where
  bodyContentHash : Nat
  feedbackEdges : List FeedbackEdge := []
  termKind : LoopTermKind := .repeatTerm
  repeatCount : Nat := 0
  epsilon : Nat := 0
deriving DecidableEq

mutual

/-- `TraceNode` with its four kinds, and the null pointer. -/
inductive TraceNode where
  | null
  | terminal (next : TraceNode)
  | region (node : RegionNode) (next : TraceNode)
  | branch (guard : Guard) (arms : Arms) (next : TraceNode)
  | loop (header : LoopHeader) (body next : TraceNode)

inductive Arms where
  | nil
  | cons (value : Int) (target : TraceNode) (rest : Arms)

end

def Arms.values : Arms → List Int
  | .nil => []
  | .cons value _ rest => value :: rest.values

def TraceNode.isNode : TraceNode → Bool
  | .null => false
  | _ => true

/-! ### The search for an arm -/

def areArmsSortedByValue : List Int → Bool
  | [] => true
  | [_] => true
  | v :: w :: rest => decide (v ≤ w) && areArmsSortedByValue (w :: rest)

/-- The binary search of `replay` in the window `[lo, hi)` of the arms. -/
def armSearch {α : Type} (arms : List (Int × α)) (val : Int) (lo hi : Nat) : Option α :=
  if lo < hi then
    let mid := lo + (hi - lo) / 2
    match arms[mid]? with
    | none => none
    | some (value, target) =>
      if value < val then armSearch arms val (mid + 1) hi
      else if val < value then armSearch arms val lo mid
      else some target
  else none
termination_by hi - lo

def selectArm {α : Type} (arms : List (Int × α)) (val : Int) : Option α :=
  armSearch arms val 0 arms.length

/-! ### Replay -/

inductive ReplayEnd where
  /-- The chain is walked to its end. -/
  | complete
  /-- A guard has a value that no arm has, and the caller falls back to recording. -/
  | unseen
  /-- A contract or a fatal check fails. -/
  | fault
deriving DecidableEq

/-- What a replay has done: the regions in the order they ran, how it ended, and the
state it left. -/
structure Replayed (σ : Type) where
  executed : List RegionNode := []
  ending : ReplayEnd := .complete
  state : σ

/-- The two functors of a replay, as programs over a state. -/
structure Replayer (σ : Type) where
  evalGuard : Guard → σ → Int × σ
  execRegion : RegionNode → σ → σ

def constantGuards (val : Int) : Replayer Unit := ⟨fun _ s => (val, s), fun _ s => s⟩

section
variable {σ : Type}

/-- Go on after a part that came to its end. -/
def Replayed.andThen (o : Replayed σ) (rest : σ → Replayed σ) : Replayed σ :=
  match o.ending with
  | .complete =>
    let next := rest o.state
    { executed := o.executed ++ next.executed, ending := next.ending, state := next.state }
  | _ => o

def Replayed.ops (o : Replayed σ) : List TraceEntry := o.executed.flatMap RegionNode.ops

def repeatBody (body : σ → Replayed σ) : Nat → σ → Replayed σ
  | 0, s => { state := s }
  | n + 1, s => (body s).andThen (repeatBody body n)

/-- The two fatal checks on a loop. -/
def LoopHeader.wellFormed (header : LoopHeader) (body : TraceNode) : Bool :=
  body.isNode && (header.termKind ≠ .untilTerm || header.repeatCount > 0)

mutual

def replay (env : Replayer σ) : TraceNode → σ → Replayed σ
  | .null, s => { state := s }
  | .terminal _, s => { state := s }
  | .region node next, s =>
    Replayed.andThen { executed := [node], state := env.execRegion node s } (replay env next)
  | .branch guard arms next, s =>
    let (val, s) := env.evalGuard guard s
    if areArmsSortedByValue arms.values then
      match selectArm (replayArms env arms) val with
      | some (some arm) => (arm s).andThen (replay env next)
      | _ => { ending := .unseen, state := s }
    else { ending := .fault, state := s }
  | .loop header body next, s =>
    if header.wellFormed body then
      (repeatBody (replay env body) header.repeatCount s).andThen (replay env next)
    else { ending := .fault, state := s }

/-- The replays of the arms.  A null target reads as no arm. -/
def replayArms (env : Replayer σ) : Arms → List (Int × Option (σ → Replayed σ))
  | .nil => []
  | .cons value target rest =>
    (value, if target.isNode then some (replay env target) else none) :: replayArms env rest

end

/-! ### Composition -/

theorem Replayed.ops_andThen (o : Replayed σ) (rest : σ → Replayed σ) :
    (o.andThen rest).ops = o.ops ++ if o.ending = .complete then (rest o.state).ops else [] := by
  rw [andThen]
  cases h : o.ending with
  | complete => exact List.flatMap_append
  | unseen => exact (List.append_nil _).symm
  | fault => exact (List.append_nil _).symm

theorem Replayed.andThen_of_ne {o : Replayed σ} (h : o.ending ≠ .complete)
    (rest : σ → Replayed σ) : o.andThen rest = o := by
  rw [andThen]
  split
  case h_1 hcom => exact absurd hcom h
  case h_2 => rfl

theorem Replayed.executed_andThen {o : Replayed σ} (h : o.ending = .complete)
    (rest : σ → Replayed σ) :
    (o.andThen rest).executed = o.executed ++ (rest o.state).executed := by
  rw [andThen, h]

end

/-! ### Change of state -/

section
variable {σ τ : Type}

/-- The outcome with its state moved. -/
def Replayed.map (f : σ → τ) (o : Replayed σ) : Replayed τ :=
  { executed := o.executed, ending := o.ending, state := f o.state }

theorem Replayed.andThen_map {f : σ → τ} {o : Replayed σ} {rest : σ → Replayed σ}
    {rest' : τ → Replayed τ} (h : ∀ s, rest' (f s) = (rest s).map f) :
    (o.map f).andThen rest' = (o.andThen rest).map f := by
  obtain ⟨executed, ending, state⟩ := o
  cases ending with
  | complete =>
    show Replayed.mk (executed ++ (rest' (f state)).executed) (rest' (f state)).ending
      (rest' (f state)).state = _
    rw [h state]
    rfl
  | unseen => rfl
  | fault => rfl

theorem repeatBody_map {f : σ → τ} {body : σ → Replayed σ} {body' : τ → Replayed τ}
    (h : ∀ s, body' (f s) = (body s).map f) (n : Nat) (s : σ) :
    repeatBody body' n (f s) = (repeatBody body n s).map f := by
  induction n generalizing s with
  | zero => rfl
  | succ n ih =>
    rw [repeatBody, h s]
    exact Replayed.andThen_map ih

/-- Arms with the same value and related targets. -/
def SameArm {α β : Type} (R : α → β → Prop) (a : Int × α) (b : Int × β) : Prop :=
  a.1 = b.1 ∧ R a.2 b.2

theorem armSearch_rel {α β : Type} {R : α → β → Prop} {arms : List (Int × α)}
    {arms' : List (Int × β)}
    (h : List.Forall₂ (SameArm R) arms arms') (val : Int) (lo hi : Nat) :
    Option.Rel R (armSearch arms val lo hi) (armSearch arms' val lo hi) := by
  have hget : ∀ i : Nat, Option.Rel (SameArm R) arms[i]? arms'[i]? := by
    intro i
    induction h generalizing i with
    | nil => exact .none
    | cons hhead _ ih =>
      cases i with
      | zero => exact .some hhead
      | succ i => exact ih i
  induction hlen : hi - lo using Nat.strong_induction_on generalizing lo hi with
  | _ n ih =>
    rw [armSearch, armSearch]
    by_cases hlt : lo < hi
    · rw [if_pos hlt, if_pos hlt]
      show Option.Rel R (match arms[lo + (hi - lo) / 2]? with | none => _ | some (_, _) => _)
        (match arms'[lo + (hi - lo) / 2]? with | none => _ | some (_, _) => _)
      have hmid := hget (lo + (hi - lo) / 2)
      revert hmid
      generalize arms[lo + (hi - lo) / 2]? = arm
      generalize arms'[lo + (hi - lo) / 2]? = arm'
      intro hmid
      cases hmid with
      | none => exact .none
      | @some a b hab =>
        obtain ⟨value, target⟩ := a
        obtain ⟨value', target'⟩ := b
        obtain ⟨rfl, hR⟩ := hab
        show Option.Rel R (if value < val then _ else if val < value then _ else _)
          (if value < val then _ else if val < value then _ else _)
        by_cases hless : value < val
        · rw [if_pos hless, if_pos hless]
          exact ih _ (by omega) _ _ rfl
        · rw [if_neg hless, if_neg hless]
          by_cases hmore : val < value
          · rw [if_pos hmore, if_pos hmore]
            exact ih _ (by omega) _ _ rfl
          · rw [if_neg hmore, if_neg hmore]
            exact .some hR
    · rw [if_neg hlt, if_neg hlt]
      exact .none

theorem selectArm_rel {α β : Type} {R : α → β → Prop} {arms : List (Int × α)}
    {arms' : List (Int × β)} (h : List.Forall₂ (SameArm R) arms arms') (val : Int) :
    Option.Rel R (selectArm arms val) (selectArm arms' val) := by
  rw [selectArm, selectArm, ← h.length_eq]
  exact armSearch_rel h val 0 arms.length

/-- An evaluator and an executor that act on the image of a state as others act on the
state. -/
structure Replayer.Follows (env' : Replayer τ) (env : Replayer σ) (f : σ → τ) : Prop where
  evalGuard : ∀ guard s,
    env'.evalGuard guard (f s) = ((env.evalGuard guard s).1, f (env.evalGuard guard s).2)
  execRegion : ∀ node s, env'.execRegion node (f s) = f (env.execRegion node s)

/-- The relation between the replays of an arm under two evaluators. -/
def FollowsArm (f : σ → τ) : Option (σ → Replayed σ) → Option (τ → Replayed τ) → Prop :=
  Option.Rel fun run run' => ∀ s, run' (f s) = (run s).map f

mutual

/-- A replay depends on the evaluator and the executor only through what they do on the
states it reaches. -/
theorem Replayer.Follows.replay {env' : Replayer τ} {env : Replayer σ} {f : σ → τ}
    (h : env'.Follows env f) :
    ∀ (node : TraceNode) (s : σ),
      Crucible.replay env' node (f s) = (Crucible.replay env node s).map f
  | .null, s => rfl
  | .terminal _, s => rfl
  | .region node next, s => by
    rw [Crucible.replay, Crucible.replay, h.execRegion]
    exact Replayed.andThen_map (o := { executed := [node], state := _ }) (h.replay next)
  | .branch guard arms next, s => by
    rw [Crucible.replay, Crucible.replay, h.evalGuard]
    generalize env.evalGuard guard s = answer
    obtain ⟨val, s⟩ := answer
    show (if _ then _ else _) = Replayed.map f (if _ then _ else _)
    by_cases hsor : areArmsSortedByValue arms.values
    · rw [if_pos hsor, if_pos hsor]
      have hsel := selectArm_rel (h.replayArms arms) val
      revert hsel
      generalize selectArm (Crucible.replayArms env arms) val = arm
      generalize selectArm (Crucible.replayArms env' arms) val = arm'
      intro hsel
      cases hsel with
      | none => rfl
      | some harm =>
        cases harm with
        | none => rfl
        | @some run run' hrun =>
          show (run' (f s)).andThen _ = Replayed.map f ((run s).andThen _)
          rw [hrun s]
          exact Replayed.andThen_map (h.replay next)
    · rw [if_neg hsor, if_neg hsor]
      rfl
  | .loop header body next, s => by
    rw [Crucible.replay, Crucible.replay]
    by_cases hwell : header.wellFormed body
    · rw [if_pos hwell, if_pos hwell, repeatBody_map (h.replay body)]
      exact Replayed.andThen_map (h.replay next)
    · rw [if_neg hwell, if_neg hwell]
      rfl

theorem Replayer.Follows.replayArms {env' : Replayer τ} {env : Replayer σ} {f : σ → τ}
    (h : env'.Follows env f) :
    ∀ arms : Arms, List.Forall₂ (SameArm (FollowsArm f)) (Crucible.replayArms env arms)
      (Crucible.replayArms env' arms)
  | .nil => .nil
  | .cons value target rest => by
    refine .cons ⟨rfl, ?_⟩ (h.replayArms rest)
    by_cases hnode : target.isNode
    · rw [if_pos hnode, if_pos hnode]
      exact .some (h.replay target)
    · rw [if_neg hnode, if_neg hnode]
      exact .none

end

end

end Crucible
