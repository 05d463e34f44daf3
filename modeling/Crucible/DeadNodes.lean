import Crucible.TensorGraph

/-! # Dead-node elimination

`eliminate_dead_nodes` counts the uses of every node, and then visits the nodes from the
last to the first, again and again: a live node that is no mutation and has no use is
marked dead, and its inputs lose the uses that it was.

A node is *needed* when it is live and is an output of the graph, or a mutation, or an input
of a needed node.  What the pass leaves live is needed, in every acyclic graph.  The other
direction rests on the width of a use count: a needed node dies when its uses are a
multiple of 65536 at a visit.
-/
namespace Crucible
open List Function
namespace Graph
variable {E : Type} (g : Graph E)

def killNode (i : Nat) : Graph E :=
  (g.node i).inputs.foldl dropUse (g.setNode i { g.node i with dead := true })

/-- One visit.  The flag says whether a node was marked. -/
def visitNode (s : Graph E × Bool) (i : Nat) : Graph E × Bool :=
  if (s.1.node i).dead then s
  else if (s.1.node i).numUses = 0 ∧ (s.1.node i).kind ≠ .mutation then (s.1.killNode i, true)
  else s

/-- The visits of the `n` first nodes, from the last one down. -/
def visitBelow (s : Graph E × Bool) (n : Nat) : Graph E × Bool :=
  (range n).reverse.foldl visitNode s

/-- The loop while something changes, for at most `fuel` rounds. -/
def deadLoop : Nat → Graph E → Option (Graph E)
  | 0, _ => none
  | fuel + 1, g =>
    match visitBelow (g, false) g.numNodes with
    | (g', true) => deadLoop fuel g'
    | (g', false) => some g'

/-- `eliminate_dead_nodes`.  A round that changes something marks a node, so there are no
more rounds than nodes, and one that changes nothing. -/
def eliminateDeadNodes : Option (Graph E) :=
  deadLoop (g.numNodes + 1) g.recomputeUses

/-- The nodes can be numbered so that every node comes after its inputs. -/
def Acyclic : Prop :=
  ∃ order : Nat → Nat, ∀ c, c < g.numNodes → ∀ i ∈ (g.node c).inputs, order i < order c

/-- Node `i` is live, and a live graph output or a live mutation is reachable from it along
consumer edges between live nodes, or it is one. -/
inductive Needed : Nat → Prop
  | output {i : Nat} (hlive : g.live i) (hout : i ∈ g.outputIds) : Needed i
  | mutation {i : Nat} (hlive : g.live i) (hkind : (g.node i).kind = .mutation) : Needed i
  | consumer {i c : Nat} (hlive : g.live i) (hc : c < g.numNodes) (hin : i ∈ (g.node c).inputs)
      (hneeded : Needed c) : Needed i

theorem Needed.live {g : Graph E} {i : Nat} (h : g.Needed i) : g.live i := by
  cases h <;> assumption

theorem killNode_node (c i : Nat) :
    (g.killNode c).node i =
      { g.node i with
        dead := if i = c then true else (g.node i).dead
        numUses := (g.node i).numUses - BitVec.ofNat 16 ((g.node c).inputs.count i) } := by
  rw [killNode, foldl_dropUse]
  by_cases hi : i = c
  · subst hi
    simp only [withUses, setNode_self, if_pos]
  · simp only [withUses, setNode_of_ne hi, if_neg hi]

theorem killNode_frame (c : Nat) :
    (g.killNode c).numNodes = g.numNodes ∧ (g.killNode c).outputIds = g.outputIds := by
  rw [killNode, foldl_dropUse]
  exact ⟨rfl, rfl⟩

/-- A graph that the pass has come to from `g`: only death marks and use counts differ, a
mark stays, and the count of every live node is the number of its uses, in 16 bits. -/
structure Swept (g g' : Graph E) : Prop where
  numNodes : g'.numNodes = g.numNodes
  outputIds : g'.outputIds = g.outputIds
  kind : ∀ i, (g'.node i).kind = (g.node i).kind
  inputs : ∀ i, (g'.node i).inputs = (g.node i).inputs
  live : ∀ i, g'.live i → g.live i
  counts : ∀ i, i < g.numNodes → g'.live i →
    (g'.node i).numUses = BitVec.ofNat 16 (g.usesBy g'.live i + g.outputIds.count i)

section Steps
variable {g g' : Graph E}

theorem swept_recomputeUses (g : Graph E) : Swept g g.recomputeUses := by
  rw [recomputeUses_eq]
  refine ⟨rfl, rfl, fun _ => rfl, fun _ => rfl, fun _ h => h, fun i hi hlive => ?_⟩
  have hcount : (if g.live i then g.outputIds.count i else 0) = g.outputIds.count i :=
    if_pos hlive
  show (if i < g.numNodes then 0 else (g.node i).numUses) + _ + _ = _
  rw [if_pos hi, hcount, BitVec.ofNat_add]
  exact congrArg (· + _) (BitVec.zero_add _)

theorem live_killNode (g : Graph E) (c : Nat) : (g.killNode c).live = update g.live c false := by
  funext i
  rw [Graph.live, killNode_node]
  by_cases hi : i = c
  · subst hi
    rw [update_self, if_pos rfl]
    rfl
  · rw [update_of_ne hi, if_neg hi]
    rfl

variable {c : Nat}

theorem live_of_killNode {i : Nat} (h : (g.killNode c).live i) : i ≠ c ∧ g.live i := by
  rw [live_killNode] at h
  by_cases hi : i = c
  · rw [hi, update_self] at h
    cases h
  · rw [update_of_ne hi] at h
    exact ⟨hi, h⟩

theorem sum_live_kill {live : Nat → Bool} {n : Nat} (hc : c < n) (hlive : live c) (f : Nat → Nat) :
    (∑ j ∈ Finset.range n, if live j then f j else 0) =
      (∑ j ∈ Finset.range n, if update live c false j then f j else 0) + f c := by
  have hmem := Finset.mem_range.mpr hc
  rw [← Finset.sum_erase_add _ _ hmem, ← Finset.sum_erase_add _ _ hmem, if_pos hlive,
    update_self]
  congr 1
  refine Finset.sum_congr rfl fun j hj => ?_
  rw [update_of_ne (Finset.ne_of_mem_erase hj)]

theorem usesBy_kill {live : Nat → Bool} (hc : c < g.numNodes) (hlive : live c) (i : Nat) :
    g.usesBy live i = g.usesBy (update live c false) i + (g.node c).inputs.count i :=
  sum_live_kill hc hlive fun j => (g.node j).inputs.count i

theorem countLive_eq (g : Graph E) :
    g.countLive = ∑ j ∈ Finset.range g.numNodes, if g.live j then 1 else 0 := by
  unfold countLive
  generalize g.numNodes = n
  induction n with
  | zero => rfl
  | succ n ih =>
    rw [range_succ, countP_append, ih, Finset.sum_range_succ, countP_singleton]
    rfl

theorem countLive_kill (hc : c < g.numNodes) (hlive : g.live c) :
    g.countLive = (g.killNode c).countLive + 1 := by
  rw [countLive_eq, countLive_eq, (killNode_frame g c).1, live_killNode]
  exact sum_live_kill hc hlive fun _ => 1

theorem countLive_le (g : Graph E) : g.countLive ≤ g.numNodes := by
  refine countP_le_length.trans ?_
  rw [length_range]

/-- **A node that dies keeps the counts.** -/
theorem Swept.killNode (h : Swept g g') (hc : c < g.numNodes) (hlive : g'.live c) :
    Swept g (g'.killNode c) := by
  obtain ⟨hnum, hout⟩ := killNode_frame g' c
  refine ⟨hnum.trans h.numNodes, hout.trans h.outputIds, fun i => ?_, fun i => ?_,
    fun i hi => h.live i (live_of_killNode hi).2, fun i hi hlive' => ?_⟩
  · rw [killNode_node]
    exact h.kind i
  · rw [killNode_node]
    exact h.inputs i
  · rw [killNode_node, live_killNode]
    rw [h.counts i hi (live_of_killNode hlive').2, usesBy_kill hc hlive i, h.inputs, add_right_comm,
      BitVec.ofNat_add, add_sub_cancel_right]

/-- **What a visit can do.** -/
theorem visitNode_cases (s : Graph E × Bool) (i : Nat) :
    (s.1.live i ∧ (s.1.node i).numUses = 0 ∧ (s.1.node i).kind ≠ .mutation ∧
      visitNode s i = (s.1.killNode i, true)) ∨
    ((s.1.live i → (s.1.node i).numUses = 0 → (s.1.node i).kind = .mutation) ∧
      visitNode s i = s) := by
  unfold visitNode Graph.live
  cases hdead : (s.1.node i).dead with
  | true => exact .inr ⟨nofun, rfl⟩
  | false =>
    by_cases hkill : (s.1.node i).numUses = 0 ∧ (s.1.node i).kind ≠ .mutation
    · rw [if_pos hkill]
      exact .inl ⟨rfl, hkill.1, hkill.2, rfl⟩
    · rw [if_neg hkill]
      exact .inr ⟨fun _ hzero => not_not.mp fun hkind => hkill ⟨hzero, hkind⟩, rfl⟩

theorem visitBelow_succ (s : Graph E × Bool) (n : Nat) :
    visitBelow s (n + 1) = visitBelow (visitNode s n) n := by
  rw [visitBelow, range_succ, reverse_append]
  rfl

/-- A node that the pass leaves as it is. -/
def Settled (g : Graph E) (i : Nat) : Prop :=
  g.live i → (g.node i).numUses = 0 → (g.node i).kind = .mutation

def KeptByDeaths (g : Graph E) (P : Graph E → Prop) : Prop :=
  ∀ g' i, Swept g g' → i < g.numNodes → g'.live i → (g'.node i).numUses = 0 →
    (g'.node i).kind ≠ .mutation → P g' → P (g'.killNode i)

/-- A property that every death keeps is kept by a round, and a round that marks no node has
found every one of them settled. -/
theorem visitBelow_spec {P : Graph E → Prop} (hkill : g.KeptByDeaths P)
    (n : Nat) (hn : n ≤ g.numNodes) (s : Graph E × Bool) (hs : Swept g s.1) (hP : P s.1) :
    Swept g (visitBelow s n).1 ∧ P (visitBelow s n).1 ∧
      (visitBelow s n = s ∧ (∀ i, i < n → s.1.Settled i) ∨
        (visitBelow s n).2 = true ∧ (visitBelow s n).1.countLive < s.1.countLive) := by
  induction n generalizing s with
  | zero => exact ⟨hs, hP, .inl ⟨rfl, fun i hi => absurd hi (Nat.not_lt_zero i)⟩⟩
  | succ n ih =>
    rw [visitBelow_succ]
    rcases visitNode_cases s n with ⟨hlive, hzero, hkind, heq⟩ | ⟨hset, heq⟩
    · rw [heq]
      have hlt : n < s.1.numNodes := by
        rw [hs.numNodes]
        omega
      have hcount : s.1.countLive = ((s.1.killNode n, true) : Graph E × Bool).1.countLive + 1 :=
        countLive_kill hlt hlive
      obtain ⟨hs', hP', hrest⟩ := ih (by omega) (s.1.killNode n, true)
        (hs.killNode (by omega) hlive) (hkill s.1 n hs (by omega) hlive hzero hkind hP)
      refine ⟨hs', hP', .inr ?_⟩
      rcases hrest with ⟨hsame, -⟩ | ⟨hflag, hfew⟩
      · rw [hsame]
        exact ⟨rfl, by omega⟩
      · exact ⟨hflag, by omega⟩
    · rw [heq]
      obtain ⟨hs', hP', hrest⟩ := ih (by omega) s hs hP
      refine ⟨hs', hP', hrest.imp_left fun ⟨hsame, hbel⟩ => ⟨hsame, fun i hi => ?_⟩⟩
      rcases Nat.lt_succ_iff_lt_or_eq.mp hi with hlt | rfl
      · exact hbel i hlt
      · exact hset

/-- **The pass ends**, with every node settled, and it keeps what every death keeps. -/
theorem deadLoop_spec {P : Graph E → Prop} (hkill : g.KeptByDeaths P)
    (fuel : Nat) (g' : Graph E) (hs : Swept g g') (hP : P g') (hfuel : g'.countLive < fuel) :
    ∃ g'', deadLoop fuel g' = some g'' ∧ Swept g g'' ∧ P g'' ∧
      ∀ i, i < g.numNodes → g''.Settled i := by
  induction fuel generalizing g' with
  | zero => exact absurd hfuel (Nat.not_lt_zero _)
  | succ fuel ih =>
    obtain ⟨hs', hP', hrest⟩ :=
      visitBelow_spec hkill g'.numNodes (le_of_eq hs.numNodes) (g', false) hs hP
    rw [deadLoop]
    rcases hrest with ⟨hsame, hset⟩ | ⟨hflag, hfew⟩
    · rw [hsame]
      rw [hs.numNodes] at hset
      exact ⟨g', rfl, hs, hP, hset⟩
    · generalize visitBelow (g', false) g'.numNodes = round at hs' hP' hflag hfew
      obtain ⟨next, flag⟩ := round
      obtain rfl : flag = true := hflag
      have hlt : next.countLive < g'.countLive := hfew
      exact ih next hs' hP' (by omega)

end Steps

/-! ### What the pass leaves -/

section Pass
variable {g g' : Graph E}

variable {i c : Nat} {live : Nat → Bool}

theorem exists_use (h : 0 < g.usesBy live i + g.outputIds.count i) :
    i ∈ g.outputIds ∨ ∃ c, c < g.numNodes ∧ live c ∧ i ∈ (g.node c).inputs := by
  rcases Nat.eq_zero_or_pos (g.outputIds.count i) with hzero | hpos
  · have hsum : g.usesBy live i ≠ 0 := by omega
    obtain ⟨c, hc, hne⟩ := Finset.exists_ne_zero_of_sum_ne_zero hsum
    by_cases hlive : live c
    · rw [if_pos hlive] at hne
      exact .inr ⟨c, Finset.mem_range.mp hc, hlive, count_pos_iff.mp (Nat.pos_of_ne_zero hne)⟩
    · exact absurd (if_neg hlive) hne
  · exact .inl (count_pos_iff.mp hpos)

theorem uses_pos (h : i ∈ g.outputIds ∨ ∃ c, c < g.numNodes ∧ live c ∧ i ∈ (g.node c).inputs) :
    0 < g.usesBy live i + g.outputIds.count i := by
  rcases h with hout | ⟨c, hc, hlive, hin⟩
  · have := count_pos_iff.mpr hout
    omega
  · have hterm : 0 < if live c then (g.node c).inputs.count i else 0 := by
      rw [if_pos hlive]
      exact count_pos_iff.mpr hin
    have hle := Finset.single_le_sum (f := fun c => if live c then (g.node c).inputs.count i else 0)
      (fun _ _ => zero_le) (Finset.mem_range.mpr hc)
    have : 0 < g.usesBy live i := hterm.trans_le hle
    omega

theorem ofNat_eq_zero_iff (k : Nat) : BitVec.ofNat 16 k = 0 ↔ 65536 ∣ k := by
  rw [Nat.dvd_iff_mod_eq_zero, ← BitVec.toNat_inj]
  rfl

theorem Swept.settled_iff (h : Swept g g') (hi : i < g.numNodes) (hlive : g'.live i) :
    g'.Settled i ↔ (65536 ∣ g.usesBy g'.live i + g.outputIds.count i →
      (g.node i).kind = .mutation) := by
  rw [Settled, h.counts i hi hlive, ofNat_eq_zero_iff, h.kind]
  exact ⟨fun hset => hset hlive, fun hset _ => hset⟩

/-- **What stays live is needed.**  A settled node that is no mutation has a use, and a node
that uses it comes later in the order of the graph. -/
theorem Swept.needed (h : Swept g g') (hacy : g.Acyclic)
    (hset : ∀ i, i < g.numNodes → g'.Settled i) (hi : i < g.numNodes)
    (hlive : g'.live i) : g.Needed i := by
  obtain ⟨order, hord⟩ := hacy
  -- the induction goes up the order, which is bounded on the nodes of the graph
  obtain ⟨top, htop⟩ : ∃ top, ∀ c, c < g.numNodes → order c ≤ top :=
    ⟨(Finset.range g.numNodes).sup order, fun c hc =>
      Finset.le_sup (f := order) (Finset.mem_range.mpr hc)⟩
  induction hrest : top - order i using Nat.strong_induction_on generalizing i with
  | _ rest ih =>
    by_cases hkind : (g.node i).kind = .mutation
    · exact .mutation (h.live i hlive) hkind
    · have hndvd : ¬ 65536 ∣ g.usesBy g'.live i + g.outputIds.count i :=
        fun hdvd => hkind (((h.settled_iff hi hlive).mp (hset i hi)) hdvd)
      have hpos : 0 < g.usesBy g'.live i + g.outputIds.count i := by
        refine Nat.pos_of_ne_zero fun hzero => hndvd ?_
        rw [hzero]
        exact Nat.dvd_zero _
      rcases exists_use hpos with hout | ⟨c, hc, hliv, hin⟩
      · exact .output (h.live i hlive) hout
      · have hlt := hord c hc i hin
        have hle := htop c hc
        exact .consumer (h.live i hlive) hc hin (ih (top - order c) (by omega) hc hliv rfl)

theorem Needed.uses_pos (h : g.Needed i) (hkind : (g.node i).kind ≠ .mutation)
    (hneed : ∀ c, c < g.numNodes → g.Needed c → live c) :
    0 < g.usesBy live i + g.outputIds.count i := by
  cases h with
  | output _ hout => exact Graph.uses_pos (.inl hout)
  | mutation _ hmut => exact absurd hmut hkind
  | consumer _ hc hin hc' => exact Graph.uses_pos (.inr ⟨_, hc, hneed _ hc hc', hin⟩)

theorem usesBy_mono {live' : Nat → Bool} (h : ∀ c, live' c → live c) (i : Nat) :
    g.usesBy live' i ≤ g.usesBy live i := by
  refine Finset.sum_le_sum fun c _ => ?_
  by_cases hlive : live' c
  · rw [if_pos hlive, if_pos (h c hlive)]
  · rw [if_neg hlive]
    exact zero_le

/-- **The pass ends.**  It keeps what every death keeps, and every node is settled. -/
theorem eliminateDeadNodes_spec {P : Graph E → Prop} (hkill : g.KeptByDeaths P)
    (hP : P g.recomputeUses) :
    ∃ g', g.eliminateDeadNodes = some g' ∧ Swept g g' ∧ P g' ∧
      ∀ i, i < g.numNodes → g'.Settled i := by
  have hs := swept_recomputeUses g
  refine deadLoop_spec hkill _ _ hs hP (Nat.lt_succ_of_le ?_)
  rw [← hs.numNodes]
  exact countLive_le _

/-- The live nodes are the needed ones.  In particular no node that the pass marked is an
input of a live node or an output of the graph. -/
structure Pruned (g g' : Graph E) : Prop where
  live_iff : ∀ i, i < g.numNodes → (g'.live i ↔ g.Needed i)
  inputs_live : ∀ c, c < g.numNodes → g'.live c → ∀ i ∈ (g'.node c).inputs,
    i < g.numNodes → g.live i → g'.live i
  outputs_live : ∀ i ∈ g'.outputIds, i < g.numNodes → g.live i → g'.live i

theorem Swept.pruned (h : Swept g g') (hacy : g.Acyclic) (hset : ∀ i, i < g.numNodes → g'.Settled i)
    (hneed : ∀ i, i < g.numNodes → g.Needed i → g'.live i) : Pruned g g' where
  live_iff i hi := ⟨h.needed hacy hset hi, hneed i hi⟩
  inputs_live c hc hlive i hin hi hold := by
    rw [h.inputs] at hin
    exact hneed i hi (.consumer hold hc hin (h.needed hacy hset hc hlive))
  outputs_live i hout hi hold := by
    rw [h.outputIds] at hout
    exact hneed i hi (.output hold hout)

/-- A death among counts below 65536 is a death without a use, so no needed node dies. -/
theorem Swept.needed_killNode (h : Swept g g')
    (hfew : ∀ i, i < g.numNodes → g.live i → g.usesBy g.live i + g.outputIds.count i < 65536)
    (hc : c < g.numNodes) (hlive : g'.live c) (hzero : (g'.node c).numUses = 0)
    (hkind : (g'.node c).kind ≠ .mutation)
    (hneeded : ∀ i, i < g.numNodes → g.Needed i → g'.live i) :
    ∀ i, i < g.numNodes → g.Needed i → (g'.killNode c).live i := by
  intro i hi hneed
  rw [live_killNode]
  by_cases heq : i = c
  · subst heq
    rw [h.kind] at hkind
    have hpos := hneed.uses_pos hkind hneeded
    have hmono := usesBy_mono (g := g) h.live i
    have hlt := hfew i hi (h.live i hlive)
    rw [h.counts i hi hlive, ofNat_eq_zero_iff] at hzero
    omega
  · rw [update_of_ne heq]
    exact hneeded i hi hneed

open Classical in
/-- The uses of a node by needed nodes and as an output. -/
noncomputable def neededUses (g : Graph E) (i : Nat) : Nat :=
  g.usesBy (fun c => decide (g.Needed c)) i + g.outputIds.count i

open Classical in
theorem Pruned.neededUses (h : Pruned g g') (i : Nat) :
    g.neededUses i = g.usesBy g'.live i + g.outputIds.count i := by
  have hsame : ∀ c, c ∈ Finset.range g.numNodes → (decide (g.Needed c)) = g'.live c := by
    intro c hc
    rw [← decide_eq_decide.mpr (h.live_iff c (Finset.mem_range.mp hc))]
    exact Bool.decide_coe _
  unfold Graph.neededUses usesBy
  congr 1
  refine Finset.sum_congr rfl fun c hc => ?_
  simp only [hsame c hc]

theorem Pruned.not_dvd (h : Pruned g g') (hs : Swept g g')
    (hset : ∀ i, i < g.numNodes → g'.Settled i) (hi : i < g.numNodes)
    (hneed : g.Needed i) (hkind : (g.node i).kind ≠ .mutation) : ¬ 65536 ∣ g.neededUses i := by
  rw [h.neededUses]
  have hlive := (h.live_iff i hi).mpr hneed
  exact fun hdvd => hkind ((hs.settled_iff hi hlive).mp (hset i hi) hdvd)

/-! ### Graphs whose nodes come after their inputs

A graph that the factories built and no pass rewired has this shape.  Here one round
settles everything: a node is visited after all the nodes that use it. -/

/-- Every node comes after its inputs in the array. -/
def InOrder (g : Graph E) : Prop :=
  ∀ c, c < g.numNodes → ∀ i ∈ (g.node c).inputs, i < c

theorem InOrder.acyclic (h : g.InOrder) : g.Acyclic := ⟨id, h⟩

/-- The visit of node `i` is over: it is settled, or it died with no use left in 16 bits. -/
structure Decided (g g' : Graph E) (i : Nat) : Prop where
  settled : g'.Settled i
  died : g.live i → ¬ g'.live i →
    65536 ∣ g.usesBy g'.live i + g.outputIds.count i ∧ (g.node i).kind ≠ .mutation

theorem Decided.killNode (h : Decided g g' i) (hs : Swept g g') (hord : g.InOrder)
    (hc : c < g.numNodes) (hci : c < i) (hlive : g'.live c) : Decided g (g'.killNode c) i := by
  have hcount : (g.node c).inputs.count i = 0 := by
    refine count_eq_zero.mpr fun hin => ?_
    have := hord c hc i hin
    omega
  have hsame : (g'.killNode c).live i = g'.live i := by
    rw [live_killNode, update_of_ne (Nat.ne_of_gt hci)]
  have hnode : (g'.killNode c).node i = g'.node i := by
    rw [killNode_node, if_neg (Nat.ne_of_gt hci), hs.inputs, hcount, BitVec.sub_zero]
  have huses : g.usesBy (g'.killNode c).live i = g.usesBy g'.live i := by
    rw [live_killNode, usesBy_kill hc hlive, hcount, add_zero]
  refine ⟨?_, ?_⟩
  · rw [Settled, hsame, hnode]
    exact h.settled
  · rw [hsame, huses]
    exact h.died

/-- **A round decides every node that it visits**, from the last one down. -/
theorem visitBelow_decided (hord : g.InOrder) (n : Nat) (hn : n ≤ g.numNodes)
    (s : Graph E × Bool) (hs : Swept g s.1)
    (habove : ∀ i, n ≤ i → i < g.numNodes → Decided g s.1 i)
    (hbel : ∀ i, i < n → g.live i → s.1.live i) :
    ∀ i, i < g.numNodes → Decided g (visitBelow s n).1 i := by
  induction n generalizing s with
  | zero => exact fun i hi => habove i (Nat.zero_le i) hi
  | succ n ih =>
    rw [visitBelow_succ]
    rcases visitNode_cases s n with ⟨hlive, hzero, hkind, heq⟩ | ⟨hset, heq⟩
    · rw [heq]
      refine ih (by omega) (s.1.killNode n, true) (hs.killNode (by omega) hlive) ?_ ?_
      · intro i hi hlt
        rcases Nat.eq_or_lt_of_le hi with rfl | hgt
        · refine ⟨?_, fun _ _ => ⟨?_, ?_⟩⟩
          · exact fun hdead => absurd rfl (live_of_killNode hdead).1
          · -- the node does not use itself, so its own death leaves its uses alone
            have hself : (g.node n).inputs.count n = 0 :=
              count_eq_zero.mpr fun hin => lt_irrefl _ (hord n hlt n hin)
            have hkill := usesBy_kill (g := g) hlt hlive n
            rw [hself, add_zero] at hkill
            rw [live_killNode, ← hkill, ← ofNat_eq_zero_iff, ← hs.counts n hlt hlive]
            exact hzero
          · rw [← hs.kind]
            exact hkind
        · exact (habove i hgt hlt).killNode hs hord (by omega) hgt hlive
      · intro i hi hold
        rw [live_killNode, update_of_ne hi.ne]
        exact hbel i (by omega) hold
    · rw [heq]
      refine ih (by omega) s hs ?_ fun i hi => hbel i (by omega)
      intro i hi hlt
      rcases Nat.eq_or_lt_of_le hi with rfl | hgt
      · exact ⟨hset, fun hold hdead => absurd (hbel n (lt_add_one n) hold) hdead⟩
      · exact habove i hgt hlt

/-- **The result in a graph that is in order**: a live node stays live exactly when it is a
mutation, or its remaining uses do not vanish in 16 bits. -/
theorem eliminateDeadNodes_inOrder (hord : g.InOrder) :
    ∃ g', g.eliminateDeadNodes = some g' ∧ Swept g g' ∧ ∀ i, i < g.numNodes → Decided g g' i := by
  have hs := swept_recomputeUses g
  have hdec := visitBelow_decided hord g.numNodes le_rfl (g.recomputeUses, false) hs
    (fun i hi hlt => absurd hlt hi.not_gt) fun i _ hold => by
      rw [recomputeUses_eq]
      exact hold
  obtain ⟨hs', -, hrest⟩ := visitBelow_spec (P := fun _ => True) (fun _ _ _ _ _ _ _ _ => trivial)
    g.numNodes le_rfl (g.recomputeUses, false) hs trivial
  rw [eliminateDeadNodes, deadLoop, hs.numNodes]
  rcases hrest with ⟨hsame, -⟩ | ⟨hflag, hfew⟩
  · rw [hsame] at hdec ⊢
    exact ⟨g.recomputeUses, rfl, hs, hdec⟩
  · have hle : g.recomputeUses.countLive ≤ g.numNodes := by
      rw [← hs.numNodes]
      exact countLive_le _
    generalize visitBelow (g.recomputeUses, false) g.numNodes = round at *
    obtain ⟨next, flag⟩ := round
    obtain rfl : flag = true := hflag
    have hlt : next.countLive < g.recomputeUses.countLive := hfew
    -- every node is settled by now, so the next round marks nothing
    obtain ⟨g', heq, hs'', rfl, -⟩ := deadLoop_spec (P := fun g' => g' = next)
      (fun g' i _ hi hlive hzero hkind hnext => by
        subst hnext
        exact absurd ((hdec i hi).settled hlive hzero) hkind)
      g.numNodes next hs' rfl (by omega)
    exact ⟨g', heq, hs'', hdec⟩

/-- In a graph that is in order the pass is exact when no needed node's uses vanish in 16
bits.  The induction goes from the last node down, so the users of a node come first. -/
theorem Decided.needed_live (hdec : ∀ i, i < g.numNodes → Decided g g' i)
    (hs : Swept g g') (hacy : g.Acyclic) (hord : g.InOrder)
    (huses : ∀ i, i < g.numNodes → g.Needed i → (g.node i).kind ≠ .mutation →
      ¬ 65536 ∣ g.neededUses i) (hi : i < g.numNodes) (hneed : g.Needed i) :
    g'.live i := by
  classical
  induction hrest : g.numNodes - i using Nat.strong_induction_on generalizing i with
  | _ rest ih =>
    by_contra hdead
    obtain ⟨hdvd, hkind⟩ := (hdec i hi).died hneed.live hdead
    refine huses i hi hneed hkind ?_
    have hsame : g.neededUses i = g.usesBy g'.live i + g.outputIds.count i := by
      unfold Graph.neededUses usesBy
      congr 1
      refine Finset.sum_congr rfl fun c hc => ?_
      have hc := Finset.mem_range.mp hc
      by_cases hin : i ∈ (g.node c).inputs
      · have hlt := hord c hc i hin
        have hiff : g.Needed c ↔ g'.live c :=
          ⟨fun hc' => ih (g.numNodes - c) (by omega) hc hc' rfl,
            hs.needed hacy (fun j hj => (hdec j hj).settled) hc⟩
        by_cases hlive : g'.live c
        · rw [if_pos hlive, if_pos (decide_eq_true (hiff.mpr hlive))]
        · rw [if_neg hlive, if_neg fun h => hlive (hiff.mp (of_decide_eq_true h))]
      · rw [count_eq_zero.mpr hin, ite_self, ite_self]
    rw [hsame]
    exact hdvd

/-- **What dead-node elimination keeps.**  The pass always ends.  In an acyclic graph whose
nodes all have fewer than 65536 uses it keeps exactly the needed nodes; whenever it does, no
needed node other than a mutation has a multiple of 65536 needed uses; and for a graph whose
nodes come after their inputs that is the exact condition. -/
theorem eliminateDeadNodes_exact (g : Graph E) (hacyclic : g.Acyclic) :
    ∃ g', g.eliminateDeadNodes = some g' ∧
      ((∀ i, i < g.numNodes → g.live i → g.usesBy g.live i + g.outputIds.count i < 65536) →
        Pruned g g') ∧
      (Pruned g g' → ∀ i, i < g.numNodes → g.Needed i → (g.node i).kind ≠ .mutation →
        ¬ 65536 ∣ g.neededUses i) ∧
      (g.InOrder → (Pruned g g' ↔ ∀ i, i < g.numNodes → g.Needed i → (g.node i).kind ≠ .mutation →
          ¬ 65536 ∣ g.neededUses i)) := by
  obtain ⟨g', heq, hs, hfew, hsettled⟩ := eliminateDeadNodes_spec
    (P := fun g' => (∀ i, i < g.numNodes → g.live i →
        g.usesBy g.live i + g.outputIds.count i < 65536) →
      ∀ i, i < g.numNodes → g.Needed i → g'.live i)
    (fun g' i hs hi hlive hzero hkind hP hfew =>
      hs.needed_killNode hfew hi hlive hzero hkind (hP hfew))
    fun _ i _ hneed => by
      rw [recomputeUses_eq]
      exact hneed.live
  have hnot : Pruned g g' → ∀ i, i < g.numNodes → g.Needed i → (g.node i).kind ≠ .mutation →
      ¬ 65536 ∣ g.neededUses i := fun h i hi hneed hkind => h.not_dvd hs hsettled hi hneed hkind
  refine ⟨g', heq, fun h => hs.pruned hacyclic hsettled (hfew h), hnot, fun horder => ?_⟩
  refine ⟨hnot, fun huses => hs.pruned hacyclic hsettled fun i hi hneed => ?_⟩
  obtain ⟨g'', heq', hs', hdecided⟩ := eliminateDeadNodes_inOrder horder
  cases heq.symm.trans heq'
  exact Decided.needed_live hdecided hs hacyclic horder huses hi hneed

/-- One graph input that `n` outputs of the graph read. -/
def fanOut (n : Nat) : Graph Nat where
  numNodes := n + 1
  node i := if i = 0 then { kind := .input } else { kind := .pointwise, inputs := [0] }
  outputIds := (range n).map (· + 1)

section FanOut
variable {n : Nat}

theorem fanOut_inputs {c : Nat} (hc : c ≠ 0) : ((fanOut n).node c).inputs = [0] := by
  simp only [fanOut, if_neg hc]

theorem fanOut_inOrder : (fanOut n).InOrder := by
  intro c _ i hin
  by_cases hc : c = 0
  · subst hc
    cases hin
  · rw [fanOut_inputs hc, mem_singleton] at hin
    omega

theorem fanOut_live (i : Nat) : (fanOut n).live i := by
  by_cases hi : i = 0
  · subst hi
    rfl
  · simp only [Graph.live, fanOut, if_neg hi, Bool.not_false]

theorem fanOut_uses (live : Nat → Bool) {i : Nat} (hi : i ≠ 0) (hlt : i < n + 1) :
    (fanOut n).usesBy live i + (fanOut n).outputIds.count i = 1 := by
  have hnone : (fanOut n).usesBy live i = 0 := by
    refine Finset.sum_eq_zero fun c _ => ?_
    by_cases hc : c = 0
    · subst hc
      exact ite_self _
    · rw [fanOut_inputs hc, count_cons_of_ne (Ne.symm hi), count_nil, ite_self]
  have honce : (fanOut n).outputIds.count i = 1 := by
    refine count_eq_one_of_mem ?_ ?_
    · exact nodup_range.map (add_left_injective 1)
    · exact mem_map.mpr ⟨i - 1, mem_range.mpr (by omega), by omega⟩
  omega

theorem fanOut_first (live : Nat → Bool) (hlive : ∀ i, i ≠ 0 → i < n + 1 → live i) :
    (fanOut n).usesBy live 0 + (fanOut n).outputIds.count 0 = n := by
  have hnone : (fanOut n).outputIds.count 0 = 0 := by
    refine count_eq_zero.mpr fun hin => ?_
    obtain ⟨j, -, hj⟩ := mem_map.mp hin
    omega
  have hinp : (if live 0 then ((fanOut n).node 0).inputs.count 0 else 0) = 0 := ite_self _
  have hall : (fanOut n).usesBy live 0 = ∑ _c ∈ Finset.range n, 1 := by
    refine (Finset.sum_range_succ' _ n).trans ?_
    rw [hinp, add_zero]
    refine Finset.sum_congr rfl fun c hc => ?_
    have hc := Finset.mem_range.mp hc
    rw [if_pos (hlive (c + 1) (Nat.succ_ne_zero c) (by omega)),
      fanOut_inputs (Nat.succ_ne_zero c), count_singleton_self]
  rw [hnone, hall, ← Finset.card_eq_sum_ones, Finset.card_range, add_zero]

end FanOut

/-- **A node that 65536 outputs read dies**, and stays the input of live nodes. -/
theorem fanOut_input_dies : ∃ g', (fanOut 65536).eliminateDeadNodes = some g' ∧
    (fanOut 65536).Acyclic ∧ ¬ g'.live 0 ∧ g'.live 1 ∧ (g'.node 1).inputs = [0] ∧
    1 ∈ g'.outputIds := by
  generalize hn : 65536 = n
  obtain ⟨g', heq, hs, hdecided⟩ := eliminateDeadNodes_inOrder (fanOut_inOrder (n := n))
  have hlive : ∀ i, i ≠ 0 → i < n + 1 → g'.live i := by
    intro i hi hlt
    by_contra hdead
    obtain ⟨hdvd, -⟩ := (hdecided i hlt).died (fanOut_live i) hdead
    rw [fanOut_uses g'.live hi hlt] at hdvd
    exact absurd hdvd (by decide)
  refine ⟨g', heq, fanOut_inOrder.acyclic, fun h0 => ?_, hlive 1 Nat.one_ne_zero (by omega), ?_, ?_⟩
  · have hzero : 0 < (fanOut n).numNodes := Nat.succ_pos _
    have hset := (hs.settled_iff hzero h0).mp (hdecided 0 hzero).settled
    rw [fanOut_first g'.live hlive, ← hn] at hset
    exact absurd (hset (Nat.dvd_refl _)) (by simp [fanOut])
  · rw [hs.inputs]
    exact fanOut_inputs Nat.one_ne_zero
  · rw [hs.outputIds]
    exact mem_map.mpr ⟨0, mem_range.mpr (by omega), rfl⟩

theorem eliminateDeadNodes_oneReader : (fanOut 1).Acyclic ∧
    ∃ g', (fanOut 1).eliminateDeadNodes = some g' ∧ Pruned (fanOut 1) g' := by
  obtain ⟨g', heq, hfew, -, -⟩ := eliminateDeadNodes_exact (fanOut 1) fanOut_inOrder.acyclic
  refine ⟨fanOut_inOrder.acyclic, g', heq, hfew fun i hi _ => ?_⟩
  by_cases hzero : i = 0
  · subst hzero
    decide
  · rw [fanOut_uses _ hzero hi]
    decide

end Pass
end Graph
end Crucible
