import Crucible.Contraction
import Crucible.GraphOrder
import Crucible.NodeEquality
import Mathlib.Data.List.Find

/-! # Fusion groups

`compute_fusion_groups` visits the live nodes in topological order.  A fusible node joins
the group of its first input that is fusible and has the same device and ranges; a node
without such an input starts a group.  Which input a node joins can be read off the graph
alone (`firstCompatible`).

The pass does not look at the other inputs of a node that joins: one of them may depend on the
group by a way that leads through other nodes.  Contracting the groups leaves an acyclic graph
exactly if no node joins a group that one of its other inputs depends on.
-/
namespace Crucible
open List Function

open Relation

def NodeKind.isFusible : NodeKind → Bool
  | .pointwise | .reduction => true
  | .input | .constant | .scan | .sort | .external | .template | .mutation | .nop => false

namespace GraphNode
variable {E : Type}

def rangesCompatible [DecidableEq E] (lhs rhs : GraphNode E) : Bool :=
  decide (lhs.deviceIdx = rhs.deviceIdx) && decide (lhs.ndim = rhs.ndim) &&
    (range lhs.ndim).all fun d => decide (lhs.size[d]? = rhs.size[d]?)

/-- The hash of the device and the ranges that `group_hash` keeps. -/
def groupHash (addrs : Addresses E) (n : GraphNode E) : Nat :=
  let hash := fmix64 ((n.deviceIdx % 2 ^ 8).toNat ||| (n.ndim <<< 8))
  wrap32 ((range n.ndim).foldl
    (fun hash d => combineIds hash (n.size[d]?.elim 0 addrs.expr)) hash)

def ranges (n : GraphNode E) : Int × Nat × List (Option E) :=
  (n.deviceIdx, n.ndim, (range n.ndim).map fun d => n.size[d]?)

theorem rangesCompatible_iff [DecidableEq E] {lhs rhs : GraphNode E} :
    lhs.rangesCompatible rhs = true ↔ lhs.ranges = rhs.ranges := by
  rw [rangesCompatible, ranges, ranges, Bool.and_eq_true, Bool.and_eq_true, decide_eq_true_iff,
    decide_eq_true_iff, all_eq_true, Prod.mk.injEq, Prod.mk.injEq]
  constructor
  · rintro ⟨⟨hdev, hndim⟩, hsiz⟩
    refine ⟨hdev, hndim, ?_⟩
    rw [← hndim]
    apply map_congr_left
    exact fun d hd => of_decide_eq_true (hsiz d hd)
  · rintro ⟨hdev, hndim, hsiz⟩
    refine ⟨⟨hdev, hndim⟩, ?_⟩
    rw [← hndim, map_inj_left] at hsiz
    exact fun d hd => decide_eq_true (hsiz d hd)

theorem groupHash_congr (addrs : Addresses E) {lhs rhs : GraphNode E}
    (h : lhs.ranges = rhs.ranges) : lhs.groupHash addrs = rhs.groupHash addrs := by
  rw [ranges, ranges, Prod.mk.injEq, Prod.mk.injEq] at h
  obtain ⟨hdev, hndim, hsiz⟩ := h
  have hfold : ∀ n : GraphNode E, n.groupHash addrs = wrap32
      (((range n.ndim).map fun d => n.size[d]?).foldl
        (fun hash e => combineIds hash (e.elim 0 addrs.expr))
        (fmix64 ((n.deviceIdx % 2 ^ 8).toNat ||| (n.ndim <<< 8)))) := by
    intro n
    rw [groupHash, foldl_map]
  rw [hfold, hfold, hsiz, hdev, hndim]

end GraphNode

/-- What the pass writes: the group and the hash of each node, the nodes that it flags as
fused, and the next group. -/
structure FusionState where
  groupId : Nat → Nat := fun _ => 0
  groupHash : Nat → Nat := fun _ => 0
  fused : Nat → Bool := fun _ => false
  nextId : Nat := 1

namespace Graph
variable {E : Type} [DecidableEq E] (g : Graph E)

def hashStep (addrs : Addresses E) (s : FusionState) (x : Nat) : FusionState :=
  { s with groupHash := update s.groupHash x ((g.node x).groupHash addrs) }

/-- The scan over the inputs: the first one that has a group, is fusible and compatible. -/
def fusionTarget (s : FusionState) (x : Nat) : Option Nat :=
  (g.node x).inputs.find? fun d =>
    s.groupId d != 0 && (g.node d).kind.isFusible && s.groupHash d == s.groupHash x &&
      (g.node x).rangesCompatible (g.node d)

def fusionStep (s : FusionState) (x : Nat) : FusionState :=
  if (g.node x).kind.isFusible then
    match g.fusionTarget s x with
    | some d =>
      { s with
        groupId := update s.groupId x (s.groupId d)
        fused := update s.fused x true }
    | none =>
      { s with groupId := update s.groupId x s.nextId, nextId := s.nextId + 1 }
  else s

/-- `compute_fusion_groups`.  It returns the number of groups, one below the next id. -/
def computeFusionGroups (addrs : Addresses E) : FusionState :=
  let hashed := g.topologicalSort.foldl (g.hashStep addrs) {}
  g.topologicalSort.foldl g.fusionStep hashed

/-! ### The groups of a graph -/

def firstCompatible (x : Nat) : Option Nat :=
  if (g.node x).kind.isFusible then
    (g.node x).inputs.find? fun d =>
      g.live d && (g.node d).kind.isFusible && (g.node x).rangesCompatible (g.node d)
  else none

def Joins (x d : Nat) : Prop := x ∈ g.liveNodes ∧ g.firstCompatible x = some d

/-- The node that a node's joins lead to. -/
inductive GroupRoot : Nat → Nat → Prop where
  | start {x : Nat} (h : ∀ d, ¬ g.Joins x d) : GroupRoot x x
  | join {x d r : Nat} (h : g.Joins x d) (hd : GroupRoot d r) : GroupRoot x r

def SameGroup (x y : Nat) : Prop := ∃ r, g.GroupRoot x r ∧ g.GroupRoot y r

/-- A node depends on another one, through edges and groups. -/
def DependsOn (y x : Nat) : Prop :=
  ReflTransGen (fun x y => (x, y) ∈ g.liveEdges ∨ g.SameGroup x y) x y

/-- No node joins a group that an input outside of the group depends on. -/
def JoinsSafely : Prop :=
  ∀ d x, (d, x) ∈ g.liveEdges → (∃ d', g.Joins x d') → ¬ g.SameGroup d x → ¬ g.DependsOn d x

/-- The vertex of the contracted graph that a node belongs to. -/
def fusionClass (groupId : Nat → Nat) (x : Nat) : Nat ⊕ Nat :=
  if groupId x = 0 then .inl x else .inr (groupId x)

variable {g} {addrs : Addresses E} {s : FusionState} {x d : Nat} {done : List Nat}

theorem firstCompatible_some (h : g.firstCompatible x = some d) :
    (g.node x).kind.isFusible = true ∧ d ∈ (g.node x).inputs ∧ g.live d = true ∧
      (g.node d).kind.isFusible = true ∧ (g.node x).ranges = (g.node d).ranges := by
  rw [firstCompatible] at h
  by_cases hfus : (g.node x).kind.isFusible = true
  · rw [if_pos hfus] at h
    have hfound := find?_some h
    rw [Bool.and_eq_true, Bool.and_eq_true, GraphNode.rangesCompatible_iff] at hfound
    exact ⟨hfus, mem_of_find?_eq_some h, hfound.1.1, hfound.1.2, hfound.2⟩
  · rw [if_neg hfus] at h
    cases h

theorem Joins.edge (h : g.Joins x d) : (d, x) ∈ g.liveEdges := by
  obtain ⟨-, hinp, hlive, -⟩ := firstCompatible_some h.2
  obtain ⟨hlt, hliv⟩ := mem_liveNodes.mp h.1
  exact mem_liveEdges.mpr ⟨hlt, hliv, hlive, hinp⟩

/-! ### The loop groups the nodes by their joins -/

/-- The groups of the nodes visited so far. -/
structure Grouped (g : Graph E) (done : List Nat) (s : FusionState) : Prop where
  unset : ∀ x, x ∉ done → s.groupId x = 0
  set : ∀ x ∈ done, (s.groupId x ≠ 0 ↔ (g.node x).kind.isFusible = true)
  joined : ∀ x ∈ done, ∀ d, g.firstCompatible x = some d → s.groupId x = s.groupId d
  started : ∀ x ∈ done, ∀ y ∈ done, g.firstCompatible x = none → g.firstCompatible y = none →
    s.groupId x ≠ 0 → s.groupId x = s.groupId y → x = y
  below : ∀ x, s.groupId x < s.nextId

/-- The nodes visited so far are live, and with each of them its live inputs are. -/
structure Visited (g : Graph E) (done : List Nat) : Prop where
  live : ∀ x ∈ done, g.live x = true
  closed : ∀ x ∈ done, ∀ d ∈ (g.node x).inputs, g.live d = true → d ∈ done

theorem fusionTarget_eq (h : Grouped g done s) (hvis : Visited g done)
    (hfusi : (g.node x).kind.isFusible = true)
    (hinp : ∀ d ∈ (g.node x).inputs, g.live d = true → d ∈ done)
    (hhash : ∀ y, y ∈ done ∨ y = x → s.groupHash y = (g.node y).groupHash addrs) :
    g.fusionTarget s x = g.firstCompatible x := by
  rw [firstCompatible, if_pos hfusi]
  apply find?_congr
  intro d hd
  by_cases hlive : g.live d = true
  · have hdone := hinp d hd hlive
    have hset := h.set d hdone
    rw [hlive, hhash d (.inl hdone), hhash x (.inr rfl)]
    cases hfus : (g.node d).kind.isFusible with
    | true =>
      have hgroup : (s.groupId d != 0) = true := bne_iff_ne.mpr (hset.mpr hfus)
      cases hcom : (g.node x).rangesCompatible (g.node d) with
      | true =>
        have hran := GraphNode.rangesCompatible_iff.mp hcom
        simp [hgroup, GraphNode.groupHash_congr addrs hran]
      | false => simp
    | false => simp
  · have hnot : d ∉ done := fun hdone => hlive (hvis.live d hdone)
    rw [Bool.not_eq_true] at hlive
    rw [hlive, h.unset d hnot]
    rfl

/-- A fusible node gets the group of the input that it joins, or a new one; any other node
stays without a group. -/
theorem Grouped.assign (h : Grouped g done s)
    (hclos : ∀ y ∈ done, ∀ d ∈ (g.node y).inputs, g.live d = true → d ∈ done)
    (hinpu : ∀ d ∈ (g.node x).inputs, g.live d = true → d ∈ done) (hx : x ∉ done)
    {s' : FusionState} {id : Nat} (hid : s'.groupId = update s.groupId x id)
    (hfus : id ≠ 0 ↔ (g.node x).kind.isFusible = true) (hlt : id < s'.nextId)
    (hnext : s.nextId ≤ s'.nextId)
    (hjoin : ∀ d, g.firstCompatible x = some d → id = s.groupId d)
    (hstart : g.firstCompatible x = none → id ≠ 0 → ∀ y ∈ done, s.groupId y ≠ id) :
    Grouped g (done ++ [x]) s' := by
  have hself : s'.groupId x = id := by rw [hid, update_self]
  have hoth : ∀ y, y ≠ x → s'.groupId y = s.groupId y := by
    intro y hy
    rw [hid, update_of_ne hy]
  have hold : ∀ y ∈ done, y ≠ x := fun y hy hyx => hx (hyx ▸ hy)
  have hmem : ∀ y, y ∈ done ++ [x] → y ∈ done ∨ y = x := by
    intro y hy
    rwa [mem_append, mem_singleton] at hy
  refine ⟨?_, ?_, ?_, ?_, ?_⟩
  · intro y hy
    have hyx : y ≠ x := fun hyx => hy (by simp [hyx])
    rw [hoth y hyx]
    exact h.unset y fun hdone => hy (mem_append_left _ hdone)
  · intro y hy
    rcases hmem y hy with hy | rfl
    · rw [hoth y (hold y hy)]
      exact h.set y hy
    · rw [hself]
      exact hfus
  · intro y hy d hd
    obtain ⟨-, hinp, hlive, -⟩ := firstCompatible_some hd
    rcases hmem y hy with hy | rfl
    · have hdone := hclos y hy d hinp hlive
      rw [hoth y (hold y hy), hoth d (hold d hdone)]
      exact h.joined y hy d hd
    · rw [hself, hoth d (hold d (hinpu d hinp hlive))]
      exact hjoin d hd
  · intro y hy z hz hynone hznone hyne hsame
    rcases hmem y hy with hydone | rfl
    · rw [hoth y (hold y hydone)] at hyne hsame
      rcases hmem z hz with hzdone | rfl
      · rw [hoth z (hold z hzdone)] at hsame
        exact h.started y hydone z hzdone hynone hznone hyne hsame
      · rw [hself] at hsame
        exact absurd hsame (hstart hznone (hsame ▸ hyne) y hydone)
    · rcases hmem z hz with hzdone | rfl
      · rw [hself] at hyne
        rw [hself, hoth z (hold z hzdone)] at hsame
        exact absurd hsame.symm (hstart hynone hyne z hzdone)
      · rfl
  · intro y
    by_cases hyx : y = x
    · rw [hyx, hself]
      exact hlt
    · rw [hoth y hyx]
      exact (h.below y).trans_le hnext

/-- **One node**: the loop body groups it as the graph says. -/
theorem fusionStep_grouped (h : Grouped g done s) (hvis : Visited g done) (hx : x ∉ done)
    (hinp : ∀ d ∈ (g.node x).inputs, g.live d = true → d ∈ done)
    (hhash : ∀ y, y ∈ done ∨ y = x → s.groupHash y = (g.node y).groupHash addrs) :
    Grouped g (done ++ [x]) (g.fusionStep s x) := by
  rw [fusionStep]
  by_cases hfusi : (g.node x).kind.isFusible = true
  · rw [if_pos hfusi, fusionTarget_eq h hvis hfusi hinp hhash]
    cases hfir : g.firstCompatible x with
    | none =>
      apply h.assign hvis.closed hinp hx rfl
      · exact iff_of_true (zero_le.trans_lt (h.below x)).ne' hfusi
      · exact lt_add_one _
      · exact Nat.le_succ _
      · simp [hfir]
      · exact fun _ _ y _ => (h.below y).ne
    | some d =>
      obtain ⟨-, hinput, hlive, hfus, -⟩ := firstCompatible_some hfir
      apply h.assign hvis.closed hinp hx rfl
      · exact iff_of_true ((h.set d (hinp d hinput hlive)).mpr hfus) hfusi
      · exact h.below d
      · exact le_rfl
      · simp [hfir]
      · simp [hfir]
  · rw [if_neg hfusi]
    apply h.assign hvis.closed hinp hx (h.unset x hx ▸ (update_eq_self x s.groupId).symm)
    · exact iff_of_false (not_not_intro rfl) hfusi
    · exact zero_le.trans_lt (h.below x)
    · exact le_rfl
    · exact fun d hd => absurd (firstCompatible_some hd).1 hfusi
    · exact fun _ hne => absurd rfl hne

theorem fusionStep_groupHash (s : FusionState) (x : Nat) :
    (g.fusionStep s x).groupHash = s.groupHash := by
  rw [fusionStep]
  split
  · cases g.fusionTarget s x <;> rfl
  · rfl

omit [DecidableEq E] in
theorem foldl_hashStep (g : Graph E) (addrs : Addresses E) (order : List Nat) (s : FusionState) :
    (order.foldl (g.hashStep addrs) s).groupId = s.groupId ∧
      (order.foldl (g.hashStep addrs) s).nextId = s.nextId ∧
      ∀ y, (order.foldl (g.hashStep addrs) s).groupHash y =
        if y ∈ order then (g.node y).groupHash addrs else s.groupHash y := by
  induction order generalizing s with
  | nil => exact ⟨rfl, rfl, fun y => (if_neg not_mem_nil).symm⟩
  | cons x rest ih =>
    obtain ⟨hgroup, hnext, hhash⟩ := ih (g.hashStep addrs s x)
    refine ⟨hgroup, hnext, fun y => ?_⟩
    rw [foldl_cons, hhash y]
    by_cases hrest : y ∈ rest
    · rw [if_pos hrest, if_pos (mem_cons_of_mem _ hrest)]
    · rw [if_neg hrest]
      by_cases hyx : y = x
      · rw [hyx, if_pos mem_cons_self]
        exact update_self ..
      · rw [if_neg (by simp [hyx, hrest])]
        exact update_of_ne hyx ..

/-! ### The contracted graph -/

/-- The inputs of live nodes are nodes, and the live part of the graph is acyclic. -/
structure AcyclicBy (g : Graph E) (rank : Nat → Nat) : Prop where
  inputs : ∀ e ∈ g.liveEdges, e.1 < g.numNodes
  rank_lt : ∀ e ∈ g.liveEdges, rank e.1 < rank e.2

variable {rank : Nat → Nat}

/-- **The pass groups the live nodes by their joins.** -/
theorem computeFusionGroups_grouped (addrs : Addresses E) (h : AcyclicBy g rank) :
    Grouped g g.liveNodes (g.computeFusionGroups addrs) := by
  obtain ⟨hperm, hsor⟩ := topologicalSort_perm h.rank_lt h.inputs
  have hmem : ∀ y ∈ g.topologicalSort, y < g.numNodes ∧ g.live y = true := fun y hy =>
    mem_liveNodes.mp (hperm.mem_iff.mp hy)
  have hnod : g.topologicalSort.Nodup := hperm.nodup_iff.mpr (nodup_range.filter _)
  obtain ⟨hgroup, hnext, hhash⟩ := foldl_hashStep g addrs g.topologicalSort {}
  have hstart : Grouped g [] (g.topologicalSort.foldl (g.hashStep addrs) {}) := by
    refine ⟨?_, ?_, ?_, ?_, ?_⟩
    · intro x _
      rw [hgroup]
    · exact forall_mem_nil _
    · exact forall_mem_nil _
    · exact forall_mem_nil _
    · intro x
      rw [hgroup, hnext]
      exact Nat.zero_lt_one
  -- the loop over the order, with the nodes that it has passed
  have hgrouped : Grouped g g.topologicalSort (g.computeFusionGroups addrs) := by
    refine (foldl_done_inv (fun done s => Grouped g done s ∧ ∀ y ∈ g.topologicalSort,
      s.groupHash y = (g.node y).groupHash addrs) ⟨hstart, fun y hy => ?_⟩ ?_).1
    · rw [hhash y]
      exact if_pos hy
    · rintro done x rest s hspl ⟨hs, hhash⟩
      have hin : ∀ y, y ∈ done ∨ y = x → y ∈ g.topologicalSort := fun y hy => by
        rw [hspl, mem_append, mem_cons]
        exact hy.imp_right .inl
      have hbefore : ∀ before y after, g.topologicalSort = before ++ y :: after →
          ∀ d ∈ (g.node y).inputs, g.live d = true → d ∈ before := by
        intro before y after hspl d hd hliv
        obtain ⟨hlt, hlivey⟩ := hmem y (by rw [hspl]; simp)
        exact hsor before y after hspl d (mem_liveEdges.mpr ⟨hlt, hlivey, hliv, hd⟩)
      have hvis : Visited g done := by
        refine ⟨fun y hy => (hmem y (hin y (.inl hy))).2, ?_⟩
        intro y hy d hd hliv
        obtain ⟨before, after, rfl⟩ := append_of_mem hy
        exact mem_append_left _ (hbefore before y (after ++ x :: rest) (by simp [hspl]) d hd hliv)
      have hx : x ∉ done := by
        rw [hspl] at hnod
        exact fun hdone => (nodup_append.mp hnod).2.2 x hdone x mem_cons_self rfl
      refine ⟨?_, ?_⟩
      · exact fusionStep_grouped hs hvis hx (hbefore done x rest hspl)
          fun y hy => hhash y (hin y hy)
      · rw [fusionStep_groupHash]
        exact hhash
  refine ⟨?_, ?_, ?_, ?_, hgrouped.below⟩ <;> simp only [← hperm.mem_iff]
  exacts [hgrouped.unset, hgrouped.set, hgrouped.joined, hgrouped.started]

theorem Grouped.class_join (h : Grouped g g.liveNodes s) (hjoin : g.Joins x d) :
    fusionClass s.groupId x = fusionClass s.groupId d := by
  have hsame := h.joined x hjoin.1 d hjoin.2
  have hne : s.groupId x ≠ 0 := (h.set x hjoin.1).mpr (firstCompatible_some hjoin.2).1
  rw [fusionClass, fusionClass, if_neg hne, if_neg (hsame ▸ hne), hsame]

variable {r : Nat}

theorem GroupRoot.class_eq (hroot : g.GroupRoot x r) (h : Grouped g g.liveNodes s) :
    fusionClass s.groupId x = fusionClass s.groupId r := by
  induction hroot with
  | start _ => rfl
  | join hjoin _ ih => exact (h.class_join hjoin).trans ih

theorem GroupRoot.not_joins (hroot : g.GroupRoot x r) : ∀ d, ¬ g.Joins r d := by
  induction hroot with
  | start hstart => exact hstart
  | join _ _ ih => exact ih

theorem GroupRoot.rank_le (hrank : ∀ e ∈ g.liveEdges, rank e.1 < rank e.2)
    (hroot : g.GroupRoot x r) : rank r ≤ rank x := by
  induction hroot with
  | start _ => exact le_rfl
  | join hjoin _ ih => exact ih.trans (hrank _ hjoin.edge).le

theorem exists_groupRoot (hrank : ∀ e ∈ g.liveEdges, rank e.1 < rank e.2) (x : Nat) :
    ∃ r, g.GroupRoot x r := by
  induction hr : rank x using Nat.strong_induction_on generalizing x with
  | _ n ih =>
    by_cases hjoins : ∃ d, g.Joins x d
    · obtain ⟨d, hjoin⟩ := hjoins
      have hlt : rank d < n := hr ▸ hrank _ hjoin.edge
      obtain ⟨r, hroot⟩ := ih (rank d) hlt d rfl
      exact ⟨r, GroupRoot.join hjoin hroot⟩
    · exact ⟨x, GroupRoot.start fun d hjoin => hjoins ⟨d, hjoin⟩⟩

theorem Grouped.root_unique (h : Grouped g g.liveNodes s) {y : Nat}
    (hx : ∀ d, ¬ g.Joins x d) (hy : ∀ d, ¬ g.Joins y d)
    (hsame : fusionClass s.groupId x = fusionClass s.groupId y) : x = y := by
  have hnone : ∀ z, (∀ d, ¬ g.Joins z d) → z ∈ g.liveNodes → g.firstCompatible z = none := by
    intro z hz hlive
    cases hfir : g.firstCompatible z with
    | none => rfl
    | some d => exact absurd ⟨hlive, hfir⟩ (hz d)
  have hmem : ∀ z, s.groupId z ≠ 0 → z ∈ g.liveNodes := by
    intro z hne
    by_contra hnot
    exact hne (h.unset z hnot)
  rw [fusionClass, fusionClass] at hsame
  split_ifs at hsame with hzero hzero' hzero'
  · exact Sum.inl.inj hsame
  · exact h.started x (hmem x hzero) y (hmem y hzero') (hnone x hx (hmem x hzero))
      (hnone y hy (hmem y hzero')) hzero (Sum.inr.inj hsame)

theorem Grouped.sameGroup_iff (h : Grouped g g.liveNodes s)
    (hrank : ∀ e ∈ g.liveEdges, rank e.1 < rank e.2) (x y : Nat) :
    g.SameGroup x y ↔ fusionClass s.groupId x = fusionClass s.groupId y := by
  constructor
  · rintro ⟨r, hx, hy⟩
    exact (hx.class_eq h).trans (hy.class_eq h).symm
  · intro hsame
    obtain ⟨r, hx⟩ := exists_groupRoot hrank x
    obtain ⟨r', hy⟩ := exists_groupRoot hrank y
    have hroots : r = r' := by
      apply h.root_unique hx.not_joins hy.not_joins
      exact (hx.class_eq h).symm.trans (hsame.trans (hy.class_eq h))
    exact ⟨r, hx, hroots ▸ hy⟩

theorem GroupRoot.ranges_eq (hroot : g.GroupRoot x r) : (g.node x).ranges = (g.node r).ranges := by
  induction hroot with
  | start _ => rfl
  | join hjoin _ ih => exact (firstCompatible_some hjoin.2).2.2.2.2.trans ih

/-- **Contracting the groups leaves an acyclic graph exactly if no node joins a group that
an input outside of it depends on.**  The nodes of a group have one device and one list of
ranges. -/
theorem fusionGroups_contract_iff (addrs : Addresses E) (h : AcyclicBy g rank) :
    (ContractsAcyclic (fun d x => (d, x) ∈ g.liveEdges)
        (fusionClass (g.computeFusionGroups addrs).groupId) ↔ g.JoinsSafely) ∧
    ∀ x y, (g.computeFusionGroups addrs).groupId x ≠ 0 →
      (g.computeFusionGroups addrs).groupId x = (g.computeFusionGroups addrs).groupId y →
      (g.node x).deviceIdx = (g.node y).deviceIdx ∧ (g.node x).ndim = (g.node y).ndim ∧
        ∀ i < (g.node x).ndim, (g.node x).size[i]? = (g.node y).size[i]? := by
  have hgrouped := computeFusionGroups_grouped addrs h
  generalize g.computeFusionGroups addrs = s at hgrouped ⊢
  have hsame := hgrouped.sameGroup_iff h.rank_lt
  constructor
  · have hlow : ∀ w x, (∀ d, ¬ g.Joins w d) → fusionClass s.groupId w = fusionClass s.groupId x →
        rank w ≤ rank x := by
      intro w x hw hclass
      obtain ⟨r, hroot⟩ := exists_groupRoot h.rank_lt x
      have hwr : w = r :=
        hgrouped.root_unique hw hroot.not_joins (hclass.trans (hroot.class_eq hgrouped))
      rw [hwr]
      exact hroot.rank_le h.rank_lt
    have hexists : ∀ x, ∃ w, (∀ d, ¬ g.Joins w d) ∧
        fusionClass s.groupId w = fusionClass s.groupId x := by
      intro x
      obtain ⟨r, hroot⟩ := exists_groupRoot h.rank_lt x
      exact ⟨r, hroot.not_joins, (hroot.class_eq hgrouped).symm⟩
    have hreach : ∀ d x, g.DependsOn d x ↔
        ReflTransGen (Contracted (fun d x => (d, x) ∈ g.liveEdges) (fusionClass s.groupId))
          (fusionClass s.groupId x) (fusionClass s.groupId d) := by
      intro d x
      rw [contracted_reaches_iff, DependsOn]
      simp only [hsame]
    rw [contractsAcyclic_iff (fun d x he => h.rank_lt (d, x) he) hlow hexists]
    constructor
    · rintro hentries d x hedge ⟨d', hjoin⟩ hother hdepends
      apply hentries d x hedge (mt (hsame d x).mpr hother) _ ((hreach d x).mp hdepends)
      exact fun hnone => hnone d' hjoin
    · intro hsafe d x hedge hclass hjoins hcontracted
      obtain ⟨d', hjoin⟩ := not_forall_not.mp hjoins
      exact hsafe d x hedge ⟨d', hjoin⟩ (mt (hsame d x).mp hclass) ((hreach d x).mpr hcontracted)
  · intro x y hne hid
    have hclass : fusionClass s.groupId x = fusionClass s.groupId y := by
      rw [fusionClass, fusionClass, if_neg hne, if_neg (hid ▸ hne), hid]
    obtain ⟨r, hx, hy⟩ := (hsame x y).mpr hclass
    have hranges := hx.ranges_eq.trans hy.ranges_eq.symm
    rw [GraphNode.ranges, GraphNode.ranges, Prod.mk.injEq, Prod.mk.injEq] at hranges
    obtain ⟨hdevice, hndim, hsizes⟩ := hranges
    refine ⟨hdevice, hndim, ?_⟩
    intro i hi
    rw [← hndim, map_inj_left] at hsizes
    exact hsizes i (mem_range.mpr hi)

theorem Joins.sameGroup (hrank : ∀ e ∈ g.liveEdges, rank e.1 < rank e.2) (h : g.Joins x d) :
    g.SameGroup d x := by
  obtain ⟨r, hroot⟩ := exists_groupRoot hrank d
  exact ⟨r, hroot, GroupRoot.join h hroot⟩

def fusionPair : Graph Unit where
  numNodes := 2
  node
    | 0 => { kind := .pointwise }
    | _ => { kind := .pointwise, inputs := [0] }

/-- Two nodes that are launched as one. -/
theorem fusionGroups_contract_pair : ContractsAcyclic (fun d x => (d, x) ∈ fusionPair.liveEdges)
      (fusionClass (fusionPair.computeFusionGroups ⟨fun _ => 0, id⟩).groupId) := by
  have hedges : fusionPair.liveEdges = [(0, 1)] := rfl
  have hacyclic : AcyclicBy fusionPair id := by
    constructor <;> rw [hedges] <;> decide
  apply (fusionGroups_contract_iff ⟨fun _ => 0, id⟩ hacyclic).1.mpr
  intro d x hedge _ hother
  rw [hedges, mem_singleton] at hedge
  obtain ⟨rfl, rfl⟩ := hedge
  have hjoin : fusionPair.Joins 1 0 := ⟨by decide, rfl⟩
  exact absurd (hjoin.sameGroup hacyclic.rank_lt) hother

/-- A pointwise node, an external kernel that reads it, and a pointwise node that reads
both. -/
def fusionDiamond : Graph Unit where
  numNodes := 3
  node
    | 0 => { kind := .pointwise }
    | 1 => { kind := .external, inputs := [0] }
    | _ => { kind := .pointwise, inputs := [0, 1] }

/-- The two pointwise nodes share a group, and the external kernel comes between them. -/
theorem fusionGroups_diamond_cycle : AcyclicBy fusionDiamond id ∧
      ((fusionDiamond.computeFusionGroups ⟨fun _ => 0, id⟩).groupId 0 = 1 ∧
        (fusionDiamond.computeFusionGroups ⟨fun _ => 0, id⟩).groupId 1 = 0 ∧
        (fusionDiamond.computeFusionGroups ⟨fun _ => 0, id⟩).groupId 2 = 1) ∧
      ¬ ContractsAcyclic (fun d x => (d, x) ∈ fusionDiamond.liveEdges)
        (fusionClass (fusionDiamond.computeFusionGroups ⟨fun _ => 0, id⟩).groupId) := by
  have hedges : fusionDiamond.liveEdges = [(0, 1), (0, 2), (1, 2)] := rfl
  have hgroups : (fusionDiamond.computeFusionGroups ⟨fun _ => 0, id⟩).groupId 0 = 1 ∧
      (fusionDiamond.computeFusionGroups ⟨fun _ => 0, id⟩).groupId 1 = 0 ∧
      (fusionDiamond.computeFusionGroups ⟨fun _ => 0, id⟩).groupId 2 = 1 := by decide +kernel
  refine ⟨by constructor <;> rw [hedges] <;> decide, hgroups, ?_⟩
  intro hacyclic
  apply hacyclic (.inr 1)
  have hclass : ∀ x id, (fusionDiamond.computeFusionGroups ⟨fun _ => 0, fun i => i⟩).groupId x =
      id → fusionClass (fusionDiamond.computeFusionGroups ⟨fun _ => 0, fun i => i⟩).groupId x =
        if id = 0 then .inl x else .inr id := by
    rintro x _ rfl
    rfl
  have hout : Contracted (fun d x => (d, x) ∈ fusionDiamond.liveEdges)
      (fusionClass (fusionDiamond.computeFusionGroups ⟨fun _ => 0, id⟩).groupId)
      (.inr 1) (.inl 1) :=
    ⟨by decide, 0, 1, by decide, hclass 0 1 hgroups.1, hclass 1 0 hgroups.2.1⟩
  have hback : Contracted (fun d x => (d, x) ∈ fusionDiamond.liveEdges)
      (fusionClass (fusionDiamond.computeFusionGroups ⟨fun _ => 0, id⟩).groupId)
      (.inl 1) (.inr 1) :=
    ⟨by decide, 1, 2, by decide, hclass 1 0 hgroups.2.1, hclass 2 1 hgroups.2.2⟩
  exact (TransGen.single hout).tail hback

end Graph

end Crucible
