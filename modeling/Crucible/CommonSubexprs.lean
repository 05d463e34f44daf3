import Crucible.GraphOrder
import Crucible.LinearProbing
import Crucible.NodeEquality
import Crucible.TraceRun

/-! # Common-subexpression elimination

`eliminate_common_subexpressions` visits the live nodes in topological order.  It looks for
an earlier node that equals the current one, with the inputs of both resolved through the
canonical map, in an open-addressing table.  A last sweep rewrites the inputs and the outputs.

The comparison depends on the canonical map, which grows during the pass.  The *key* of a node
is all that it looks at, and the key of a visited node stays as it is, because its inputs were
visited before it: `Merging` is the invariant that says so, and that the table is a map from
the keys seen to the nodes that stand for them.
-/
namespace Crucible
open List Function GraphNode
open OpenAddressing
namespace Graph
variable {E : Type} [DecidableEq E]

/-- The state of the pass: the canonical map, the table of hashes and nodes, and the nodes
that were eliminated, the last one first. -/
structure CseState where
  canonical : Nat → Nat := id
  table : Nat → Option (Nat × Nat) := fun _ => none
  merged : List Nat := []

def cseSlot (cap hash i : Nat) : Nat := (wrap32 hash + i) &&& (cap - 1)

variable (g : Graph E)

/-- The probe loop from probe `i` on, with `n` probes left. -/
def cseProbe (s : CseState) (cap hash x : Nat) : Nat → Nat → Except PassFault Probe
  | _, 0 => .ok .full
  | i, n + 1 =>
    match s.table (cseSlot cap hash i) with
    | none => .ok (.free (cseSlot cap hash i))
    | some (hash', y) =>
      if hash' = hash then do
        if ← (g.node x).cseEqual s.canonical (g.node y) then
          pure (.hit (cseSlot cap hash i))
        else cseProbe s cap hash x (i + 1) n
      else cseProbe s cap hash x (i + 1) n

/-- The nodes that the pass leaves alone. -/
def skipped (x : Nat) : Bool :=
  (g.node x).kind = .input || (g.node x).kind = .mutation

/-- The body of the loop for node `x`. -/
def cseVisit (addrs : Addresses E) (cap : Nat) (s : CseState) (x : Nat) :
    Except PassFault CseState :=
  if g.skipped x then .ok s
  else do
    let hash ← (g.node x).cseHash addrs s.canonical
    match ← cseProbe g s cap hash x 0 cap with
    | .free c => pure { s with table := update s.table c (some (hash, x)) }
    | .hit c =>
      match s.table c with
      | some (_, y) =>
        pure { s with canonical := update s.canonical x y, merged := x :: s.merged }
      | none => pure s
    | .full => pure s

/-- The last sweep: the eliminated nodes are dead, and the inputs of the live nodes and the
outputs are resolved. -/
def resolve (s : CseState) : Graph E :=
  let dead : Graph E :=
    { g with node := fun i => { g.node i with dead := (g.node i).dead || i ∈ s.merged } }
  if s.merged = [] then dead
  else
    recomputeUses
      { dead with
        node := fun i =>
          if (dead.node i).dead then dead.node i
          else { dead.node i with inputs := (dead.node i).inputs.map s.canonical }
        outputIds := g.outputIds.map s.canonical }

def cseCapacity : Nat := bitCeil (g.liveNodes.length * 2 + 1)

def cseLoop (addrs : Addresses E) : Except PassFault CseState :=
  g.topologicalSort.foldlM (g.cseVisit addrs g.cseCapacity) {}

/-- `eliminate_common_subexpressions`, with the canonical map that it ends with. -/
def eliminateCommonSubexpressions (addrs : Addresses E) :
    Except PassFault (Graph E × (Nat → Nat)) := do
  let s ← g.cseLoop addrs
  pure (g.resolve s, s.canonical)

/-! ### Keys -/

/-- All that the comparison of two nodes looks at. -/
abbrev CseKey (E : Type) := GraphNode.Shell E × GraphNode.BodyKey

def key (g : Graph E) (canonical : Nat → Nat) (x : Nat) : CseKey E :=
  ((g.node x).shell canonical, (g.node x).bodyKey)

variable {canonical : Nat → Nat} {g : Graph E} {x hash : Nat}

omit [DecidableEq E] in
theorem key_congr {canonical' : Nat → Nat}
    (h : ∀ d ∈ (g.node x).inputs, canonical d = canonical' d) :
    g.key canonical x = g.key canonical' x := by
  have hinp : (g.node x).inputs.map canonical = (g.node x).inputs.map canonical' :=
    map_congr_left h
  simp only [key, shell, hinp]

open Classical in
noncomputable def keyHash (addrs : Addresses E) (k : CseKey E) : Nat :=
  if h : ∃ hash, ∃ (n : GraphNode E) (canonical : Nat → Nat),
      (n.shell canonical, n.bodyKey) = k ∧ n.cseHash addrs canonical = .ok hash
  then h.choose else 0

variable {addrs : Addresses E}

omit [DecidableEq E] in
theorem keyHash_eq (h : (g.node x).cseHash addrs canonical = .ok hash) :
    keyHash addrs (g.key canonical x) = hash := by
  have hex : ∃ hash, ∃ (n : GraphNode E) (canonical' : Nat → Nat),
      (n.shell canonical', n.bodyKey) = g.key canonical x ∧ n.cseHash addrs canonical' = .ok hash :=
    ⟨hash, g.node x, canonical, rfl, h⟩
  rw [keyHash, dif_pos hex]
  obtain ⟨n, canonical', hkey, hhash⟩ := hex.choose_spec
  obtain ⟨hshell, hbody⟩ := Prod.mk.inj hkey
  rw [cseHash_congr hshell hbody, h] at hhash
  exact (Except.ok.inj hhash).symm

/-! ### The probe loop -/

/-- The cells of the table, with the key of each stored node in place of its hash. -/
abbrev Keyed (E : Type) := Nat → Option (CseKey E × Nat)

def cellKey (cell : Option (CseKey E × Nat)) : Option (CseKey E) := cell.map Prod.fst

noncomputable def cseCell (addrs : Addresses E) (cap : Nat) (k : CseKey E) (i : Nat) : Nat :=
  cseSlot cap (keyHash addrs k) i

omit [DecidableEq E] in
theorem cseCell_fullCycle (addrs : Addresses E) (m : Nat) :
    FullCycle (cseCell addrs (2 ^ m)) (2 ^ m) := by
  have hcell : cseCell addrs (2 ^ m) =
      linear (fun k => wrap32 (keyHash addrs k) % 2 ^ m) (2 ^ m) := by
    funext k i
    rw [cseCell, cseSlot, Nat.and_two_pow_sub_one_eq_mod, linear, Nat.mod_add_mod]
  rw [hcell]
  exact linear_fullCycle fun k => Nat.mod_lt _ (Nat.two_pow_pos m)

/-- The table of the pass and the table of keys hold the same nodes. -/
structure Shows (g : Graph E) (addrs : Addresses E) (s : CseState) (keyed : Keyed E) : Prop where
  table : ∀ c, s.table c = (keyed c).map fun p => (keyHash addrs p.1, p.2)
  key : ∀ c k y, keyed c = some (k, y) → g.key s.canonical y = k

/-- The bodies that cannot be compared do not tell nodes apart. -/
def Uniform (g : Graph E) (x y : Nat) : Prop :=
  (g.node x).kind = (g.node y).kind → ¬ ((g.node x).Comparable ∧ (g.node y).Comparable) →
    (g.node x).bodyKey = (g.node y).bodyKey

omit [DecidableEq E] in
theorem comparable_of_key {y : Nat}
    (h : g.key canonical x = g.key canonical y) (hx : (g.node x).Comparable) :
    (g.node y).Comparable := by
  obtain ⟨hshell, hbody⟩ := Prod.mk.inj h
  have hkind : (g.node x).kind = (g.node y).kind := congrArg Shell.kind hshell
  refine ⟨fun hc => ?_, fun hc => ?_⟩
  · have hc' := hkind ▸ hc
    obtain ⟨body, hb⟩ := hx.1 hc'
    have := congrArg BodyKey.compute hbody
    simp only [bodyKey, if_pos hc, if_pos hc', Option.some.injEq] at this
    exact ⟨body, this ▸ hb⟩
  · have hc' := hkind ▸ hc
    obtain ⟨info, hb⟩ := hx.2 hc'
    have := congrArg BodyKey.external hbody
    simp only [bodyKey, if_pos hc, if_pos hc', Option.some.injEq, hb,
      externKey] at this
    cases hy : (g.node y).body with
    | null => simp [hy] at this
    | compute body => simp [hy] at this
    | external info' => exact ⟨info', rfl⟩

/-- **The probe loop is a search for the key**, which ends with a fault at a node that has the
key and cannot be compared. -/
theorem cseProbe_eq {s : CseState} {keyed : Keyed E} (hshows : Shows g addrs s keyed)
    (hhash : (g.node x).cseHash addrs s.canonical = .ok hash)
    (hunif : ∀ c k y, keyed c = some (k, y) → g.Uniform x y) (cap i n : Nat) :
    (∀ c, search cellKey (cseCell addrs cap) keyed (g.key s.canonical x) i n = .hit c →
      ((g.node x).Comparable → cseProbe g s cap hash x i n = .ok (.hit c)) ∧
      (¬ (g.node x).Comparable → ∃ e, cseProbe g s cap hash x i n = .error e)) ∧
    ((∀ c, search cellKey (cseCell addrs cap) keyed (g.key s.canonical x) i n ≠ .hit c) →
      cseProbe g s cap hash x i n =
        .ok (search cellKey (cseCell addrs cap) keyed (g.key s.canonical x) i n)) := by
  induction n generalizing i with
  | zero => exact ⟨by rintro _ ⟨⟩, fun _ => rfl⟩
  | succ n ih =>
    have hslot : cseCell addrs cap (g.key s.canonical x) i = cseSlot cap hash i := by
      rw [cseCell, keyHash_eq hhash]
    have hcell := hshows.table (cseSlot cap hash i)
    cases hk : keyed (cseSlot cap hash i) with
    | none =>
      simp only [search, cseProbe, hslot, hcell, hk, cellKey, Option.map_none]
      exact ⟨by rintro _ ⟨⟩, fun _ => trivial⟩
    | some entry =>
      obtain ⟨k, y⟩ := entry
      have hkey := hshows.key _ k y hk
      simp only [search, cseProbe, hslot, hcell, hk, cellKey, Option.map_some]
      by_cases hsame : k = g.key s.canonical x
      · -- a node with the key: its hash is the hash of the current node
        have hkh : keyHash addrs k = hash := by rw [hsame, keyHash_eq hhash]
        obtain ⟨hshell, hbody⟩ := Prod.mk.inj (hkey.trans hsame)
        rw [if_pos hsame, if_pos hkh]
        refine ⟨fun c hc => ?_, fun h => absurd rfl (h _)⟩
        obtain rfl : cseSlot cap hash i = c := by injection hc
        refine ⟨fun hcx => ?_, fun hcx => ?_⟩
        · have hcy := comparable_of_key (hsame.symm.trans hkey.symm) hcx
          rw [cseEqual_of_comparable hshell.symm hcx hcy, decide_eq_true hbody.symm]
          rfl
        · obtain ⟨e, he⟩ := cseEqual_fault hshell.symm fun h => hcx h.1
          rw [he]
          exact ⟨e, rfl⟩
      · -- a node with another key: the comparison says so, or is not made
        have hfal : (g.node x).cseEqual s.canonical (g.node y) = .ok false := by
          by_cases hshell : (g.node x).shell s.canonical = (g.node y).shell s.canonical
          · have hbody : (g.node x).bodyKey ≠ (g.node y).bodyKey := fun h =>
              hsame (hkey.symm.trans (Prod.ext hshell.symm h.symm))
            have hc : (g.node x).Comparable ∧ (g.node y).Comparable := by
              by_contra hno
              exact hbody (hunif _ k y hk (congrArg Shell.kind hshell) hno)
            rw [cseEqual_of_comparable hshell hc.1 hc.2, decide_eq_false hbody]
          · exact cseEqual_of_shell_ne hshell
        rw [if_neg hsame, hfal, bind_of_ok rfl, if_neg Bool.false_ne_true, ite_self]
        exact ih (i + 1)

/-! ### The loop -/

def cellNode (cell : Option (CseKey E × Nat)) : Nat := (cell.map Prod.snd).getD 0

/-- The nodes of a list that the pass does not leave alone. -/
def active (g : Graph E) (visited : List Nat) : List Nat := visited.filter fun x => !g.skipped x

/-- What the canonical map is after the nodes `seen`: each of them is replaced by the node that the
map of keys has for it, and any other one stands for itself. -/
structure Replaced (g : Graph E) (addrs : Addresses E) (seen : List Nat)
    (canonical : Nat → Nat) (m : BoundedMap (CseKey E) Nat) : Prop where
  few : m.keys.length ≤ seen.length
  val : ∀ k ∈ m.keys, m.val k ∈ seen ∧ canonical (m.val k) = m.val k ∧
    g.key canonical (m.val k) = k
  mapped : ∀ x ∈ seen, g.key canonical x ∈ m.keys ∧ canonical x = m.val (g.key canonical x)
  alone : ∀ x, x ∉ seen → canonical x = x
  unread : ∀ x ∈ seen, ¬ (g.node x).Comparable → canonical x = x
  hashed : ∀ x ∈ seen, ∃ hash, (g.node x).cseHash addrs canonical = .ok hash

/-- **The invariant of the loop.** -/
structure Merging (g : Graph E) (addrs : Addresses E) (cap : Nat) (seen : List Nat)
    (s : CseState) : Prop where
  map : ∃ keyed m, Shows g addrs s keyed ∧
    Represents cellKey (cseCell addrs cap) cap cellNode keyed m ∧
    Replaced g addrs seen s.canonical m ∧ ∀ c k y, keyed c = some (k, y) → y ∈ seen
  moved : ∀ x, s.canonical x ≠ x → x ∈ s.merged

section Loop
variable {g : Graph E} {addrs : Addresses E} {cap x : Nat} {visited seen : List Nat} {s : CseState}

variable {canonical : Nat → Nat} {m : BoundedMap (CseKey E) Nat}

section
omit [DecidableEq E]

theorem merging_start : Merging g addrs cap (g.active []) {} := by
  have hno : ∀ {α : Type} {x : α} {p : Prop}, (none : Option α) = some x → p := nofun
  refine ⟨⟨fun _ => none, ⟨[], fun _ => 0⟩, ⟨fun _ => rfl, fun _ _ _ hk => hno hk⟩,
    .empty _ fun _ _ => rfl, ⟨le_rfl, forall_mem_nil _, forall_mem_nil _, fun _ _ => rfl,
      forall_mem_nil _, forall_mem_nil _⟩, fun _ _ _ hk => hno hk⟩, fun x hx => absurd rfl hx⟩

theorem mem_active : x ∈ g.active visited ↔ x ∈ visited ∧ g.skipped x = false := by
  simp [active]

theorem Replaced.key_eq_iff (h : Replaced g addrs seen canonical m) {y : Nat} (hx : x ∈ seen)
    (hy : y ∈ seen) : canonical x = canonical y ↔ g.key canonical x = g.key canonical y := by
  obtain ⟨hmx, hcx⟩ := h.mapped x hx
  obtain ⟨hmy, hcy⟩ := h.mapped y hy
  constructor
  · intro heq
    rw [← (h.val _ hmx).2.2, ← (h.val _ hmy).2.2, ← hcx, ← hcy, heq]
  · intro heq
    rw [hcx, hcy, heq]

theorem Replaced.insert {m' : BoundedMap (CseKey E) Nat}
    (hm : Replaced g addrs seen canonical m) (hx : x ∉ seen)
    (hhash : ∃ hash, (g.node x).cseHash addrs canonical = .ok hash)
    (hkeys : m'.keys = m.keys ++ [g.key canonical x])
    (hval : ∀ k ∈ m.keys, m'.val k = m.val k) (hself : m'.val (g.key canonical x) = x) :
    Replaced g addrs (seen ++ [x]) canonical m' := by
  have halone : canonical x = x := hm.alone x hx
  refine ⟨?_, ?_, ?_, fun y hy => hm.alone y fun hin => hy (mem_append_left _ hin), ?_, ?_⟩
  · rw [hkeys, length_append, length_append]
    exact Nat.succ_le_succ hm.few
  · rw [hkeys, forall_mem_append, forall_mem_singleton, hself]
    refine ⟨fun k hk => ?_, mem_append_right _ mem_cons_self, halone, rfl⟩
    rw [hval k hk]
    exact ⟨mem_append_left _ (hm.val k hk).1, (hm.val k hk).2⟩
  · rw [hkeys, forall_mem_append, forall_mem_singleton]
    refine ⟨fun y hy => ?_, mem_append_right _ mem_cons_self, halone.trans hself.symm⟩
    obtain ⟨hmem, heq⟩ := hm.mapped y hy
    exact ⟨mem_append_left _ hmem, heq.trans (hval _ hmem).symm⟩
  · rw [forall_mem_append, forall_mem_singleton]
    exact ⟨hm.unread, fun _ => halone⟩
  · rw [forall_mem_append, forall_mem_singleton]
    exact ⟨hm.hashed, hhash⟩

end

section Visit
variable {keyed : Keyed E} {hash : Nat} (hshows : Shows g addrs s keyed)
  (hrep : Represents cellKey (cseCell addrs cap) cap cellNode keyed m)
  (hm : Replaced g addrs seen s.canonical m) (hstor : ∀ c k y, keyed c = some (k, y) → y ∈ seen)
  (hmov : ∀ x, s.canonical x ≠ x → x ∈ s.merged) (hx : x ∉ seen)
  (hhash : (g.node x).cseHash addrs s.canonical = .ok hash)
include hshows hrep hm hstor hmov hx hhash

theorem Merging.store {c : Nat} (hcyc : FullCycle (cseCell addrs cap) cap)
    (hroom : seen.length < cap)
    (hfind : find cellKey (cseCell addrs cap) cap keyed (g.key s.canonical x) = .free c)
    (hnew : g.key s.canonical x ∉ m.keys) :
    Merging g addrs cap (seen ++ [x])
      { s with table := update s.table c (some (hash, x)) } := by
  have hstore := hrep.store_free hcyc (s := some (g.key s.canonical x, x)) hfind rfl
  have hput : m.put cap (g.key s.canonical x) x =
      { keys := m.keys ++ [g.key s.canonical x]
        val := update m.val (g.key s.canonical x) x } := by
    rw [BoundedMap.put, if_neg hnew, if_pos (hm.few.trans_lt hroom)]
  have hcel : ∀ c' k y, update keyed c (some (g.key s.canonical x, x)) c' = some (k, y) →
      g.key s.canonical x = k ∧ x = y ∨ keyed c' = some (k, y) := by
    intro c' k y hk
    by_cases hc : c' = c
    · rw [hc, update_self] at hk
      exact .inl (Prod.mk.inj (Option.some.inj hk))
    · rw [update_of_ne hc] at hk
      exact .inr hk
  refine ⟨⟨_, m.put cap (g.key s.canonical x) x, ⟨fun c' => ?_, fun c' k y hk => ?_⟩, hstore, ?_,
    fun c' k y hk => ?_⟩, hmov⟩
  · by_cases hc : c' = c
    · subst hc
      simp only [update_self, Option.map_some, keyHash_eq hhash]
    · simp only [update_of_ne hc, hshows.table]
  · rcases hcel c' k y hk with ⟨rfl, rfl⟩ | hk
    · rfl
    · exact hshows.key c' k y hk
  · refine hm.insert hx ⟨hash, hhash⟩ (by rw [hput]) (fun k hk => ?_) ?_
    · rw [hput]
      exact update_of_ne (fun heq : k = g.key s.canonical x => hnew (heq ▸ hk)) _ _
    · rw [hput]
      exact update_self _ _ _
  · rcases hcel c' k y hk with ⟨-, rfl⟩ | hk
    · exact mem_append_right _ mem_cons_self
    · exact mem_append_left _ (hstor c' k y hk)

omit [DecidableEq E] in
theorem Merging.merge {y : Nat} (hfresh : ∀ z ∈ seen ++ [x], x ∉ (g.node z).inputs)
    (hcomp : (g.node x).Comparable)
    (hmem : g.key s.canonical x ∈ m.keys) (hy : m.val (g.key s.canonical x) = y) :
    Merging g addrs cap (seen ++ [x])
      { s with canonical := update s.canonical x y, merged := x :: s.merged } := by
  -- no node that has been visited reads the current one, so all keys stay as they are
  have hkey : ∀ z ∈ seen ++ [x],
      g.key (update s.canonical x y) z = g.key s.canonical z := fun z hz =>
    key_congr fun d hd => update_of_ne (fun heq => hfresh z hz (by rwa [← heq])) _ _
  have hhas : ∀ z ∈ seen ++ [x], (g.node z).cseHash addrs (update s.canonical x y) =
      (g.node z).cseHash addrs s.canonical := by
    intro z hz
    obtain ⟨hshell, hbody⟩ := Prod.mk.inj (hkey z hz)
    exact cseHash_congr hshell hbody
  rw [forall_mem_append, forall_mem_singleton] at hkey hhas
  obtain ⟨hkeys, hkeyx⟩ := hkey
  have hold : ∀ z ∈ seen, update s.canonical x y z = s.canonical z := fun z hz =>
    update_of_ne (fun heq : z = x => hx (heq ▸ hz)) _ _
  refine ⟨⟨keyed, m, ⟨hshows.table, fun c k z hk => ?_⟩, hrep, ⟨?_, fun k hk => ?_, ?_,
    fun z hz => ?_, ?_, ?_⟩, fun c k z hk => mem_append_left _ (hstor c k z hk)⟩, fun z hz => ?_⟩
  · rw [hkeys z (hstor c k z hk)]
    exact hshows.key c k z hk
  · rw [length_append]
    exact Nat.le_add_right_of_le hm.few
  · obtain ⟨hin, hself, heq⟩ := hm.val k hk
    exact ⟨mem_append_left _ hin, (hold _ hin).trans hself, (hkeys _ hin).trans heq⟩
  · rw [forall_mem_append, forall_mem_singleton, hkeyx]
    refine ⟨fun z hz => ?_, hmem, (update_self _ _ _).trans hy.symm⟩
    obtain ⟨hmem, heq⟩ := hm.mapped z hz
    rw [hkeys z hz]
    exact ⟨hmem, (hold z hz).trans heq⟩
  · obtain ⟨hnot, hne⟩ := not_or.mp (mt mem_append.mpr hz)
    exact (update_of_ne (mt mem_singleton.mpr hne) _ _).trans (hm.alone z hnot)
  · rw [forall_mem_append, forall_mem_singleton]
    exact ⟨fun z hz hc => (hold z hz).trans (hm.unread z hz hc), fun hc => absurd hcomp hc⟩
  · rw [forall_mem_append, forall_mem_singleton, hhas.2]
    refine ⟨fun z hz => ?_, hash, hhash⟩
    rw [hhas.1 z hz]
    exact hm.hashed z hz
  · by_cases hzx : z = x
    · exact hzx ▸ mem_cons_self
    · have hz' : update s.canonical x y z ≠ z := hz
      rw [update_of_ne hzx] at hz'
      exact mem_cons_of_mem _ (hmov z hz')

end Visit

omit [DecidableEq E] in
theorem Merging.outputIds (h : Merging g addrs cap seen s) :
    (g.resolve s).outputIds = g.outputIds.map s.canonical := by
  rw [resolve]
  by_cases hmer : s.merged = []
  · -- with no node eliminated every node stands for itself
    have hself : ∀ x, s.canonical x = x := by
      intro x
      by_contra hne
      have := h.moved x hne
      rw [hmer] at this
      cases this
    rw [if_pos hmer, funext hself]
    exact (map_id' _).symm
  · rw [if_neg hmer, recomputeUses_eq]
    rfl

/-- The two ways in which the visit of a node ends with a fault. -/
def Unreadable (g : Graph E) (addrs : Addresses E) (seen : List Nat) (s : CseState) (x : Nat) :
    Prop :=
  (∀ hash, (g.node x).cseHash addrs s.canonical ≠ .ok hash) ∨
    ¬ (g.node x).Comparable ∧ ∃ y ∈ seen, g.key s.canonical y = g.key s.canonical x

/-- Nodes of the graph that can be hashed are told apart by bodies that can be compared. -/
def UniformBodies (g : Graph E) (addrs : Addresses E) : Prop :=
  ∀ (x y : Nat) (canonical : Nat → Nat), x < g.numNodes → y < g.numNodes →
    g.skipped x = false → g.skipped y = false →
    (∃ hash, (g.node x).cseHash addrs canonical = .ok hash) →
    (∃ hash, (g.node y).cseHash addrs canonical = .ok hash) → g.Uniform x y

/-- **A visit keeps the invariant, or ends the pass at a body that cannot be read.** -/
theorem Merging.visit (h : Merging g addrs cap (g.active visited) s)
    (hcyc : FullCycle (cseCell addrs cap) cap) (hroom : visited.length < cap)
    (hx : x ∉ visited) (hfresh : ∀ z ∈ visited ++ [x], x ∉ (g.node z).inputs)
    (hnod : ∀ z ∈ visited ++ [x], z < g.numNodes) (hunif : g.UniformBodies addrs) :
    (∃ s', g.cseVisit addrs cap s x = .ok s' ∧
        Merging g addrs cap (g.active (visited ++ [x])) s') ∨
      (∃ e, g.cseVisit addrs cap s x = .error e) ∧ g.skipped x = false ∧
        g.Unreadable addrs (g.active visited) s x := by
  cases hskip : g.skipped x with
  | true =>
    refine .inl ⟨s, ?_, ?_⟩
    · rw [cseVisit, if_pos hskip]
    · simpa [active, hskip] using h
  | false =>
    have hseen : g.active (visited ++ [x]) = g.active visited ++ [x] := by simp [active, hskip]
    have hnew : x ∉ g.active visited := fun hin => hx (mem_active.mp hin).1
    have hroom : (g.active visited).length < cap := (length_filter_le _ _).trans_lt hroom
    rw [cseVisit, if_neg (by rw [hskip]; exact Bool.false_ne_true), hseen]
    cases hhash : (g.node x).cseHash addrs s.canonical with
    | error e =>
      refine .inr ⟨⟨e, rfl⟩, rfl, .inl fun hash heq => ?_⟩
      rw [hhash] at heq
      cases heq
    | ok hash =>
      obtain ⟨keyed, m, hshows, hrep, hm, hstor⟩ := h.map
      have huni : ∀ c k y, keyed c = some (k, y) → g.Uniform x y := fun c k y hk =>
        hunif x y s.canonical (hnod x (mem_append_right _ mem_cons_self))
          (hnod y (mem_append_left _ (mem_active.mp (hstor c k y hk)).1)) hskip
          (mem_active.mp (hstor c k y hk)).2 ⟨hash, hhash⟩ (hm.hashed y (hstor c k y hk))
      obtain ⟨hhit, hmiss⟩ := cseProbe_eq hshows hhash huni cap 0 cap
      rcases hrep.find_cases hcyc (g.key s.canonical x) with
        ⟨c, hfind, hmem, hkey, hval⟩ | ⟨c, hfind, hfree, -⟩ | ⟨-, -, hfull⟩
      · by_cases hcomp : (g.node x).Comparable
        · have hfresh : ∀ z ∈ g.active visited ++ [x], x ∉ (g.node z).inputs := fun z hz =>
            hfresh z (mem_of_mem_filter (hseen ▸ hz))
          refine .inl ⟨_, ?_, .merge hshows hrep hm hstor h.moved hnew hhash hfresh hcomp hmem rfl⟩
          have hcell : s.table c = some (keyHash addrs (g.key s.canonical x),
              m.val (g.key s.canonical x)) := by
            rw [hshows.table, ← hval]
            obtain ⟨⟨k, y⟩, hk, rfl⟩ := Option.map_eq_some_iff.mp hkey
            rw [hk]
            rfl
          rw [bind_of_ok rfl, bind_of_ok ((hhit c hfind).1 hcomp)]
          simp only [hcell]
          rfl
        · obtain ⟨e, he⟩ := (hhit c hfind).2 hcomp
          refine .inr ⟨⟨e, ?_⟩, rfl, .inr ⟨hcomp, m.val (g.key s.canonical x), ?_⟩⟩
          · rw [bind_of_ok rfl, he]
            rfl
          · obtain ⟨hin, -, heq⟩ := hm.val _ hmem
            exact ⟨hin, heq⟩
      · refine .inl ⟨_, ?_, .store hshows hrep hm hstor h.moved hnew hhash hcyc hroom hfind hfree⟩
        have hprobe := hmiss fun c' hc' => by
          rw [show search cellKey (cseCell addrs cap) keyed (g.key s.canonical x) 0 cap
              = .free c from hfind] at hc'
          cases hc'
        rw [bind_of_ok rfl, bind_of_ok (hprobe.trans (congrArg Except.ok hfind))]
        rfl
      · exact absurd hfull (ne_of_lt (hm.few.trans_lt hroom))

/-- **The loop over a sorted list**: it ends with the invariant for all the nodes, or with a
fault at a node that cannot be read, with the invariant for those before. -/
theorem cseFold_cases (hcyc : FullCycle (cseCell addrs cap) cap)
    (hunif : g.UniformBodies addrs) {order rest : List Nat} (hnod : order.Nodup)
    (hsor : ∀ before x after, order = before ++ x :: after →
      ∀ z ∈ before ++ [x], x ∉ (g.node z).inputs)
    (hnodes : ∀ z ∈ order, z < g.numNodes) (hroom : order.length ≤ cap)
    (heq : order = visited ++ rest) (hs : Merging g addrs cap (g.active visited) s) :
    (∃ s', rest.foldlM (g.cseVisit addrs cap) s = .ok s' ∧
        Merging g addrs cap (g.active order) s') ∨
      (∃ e, rest.foldlM (g.cseVisit addrs cap) s = .error e) ∧
        ∃ before x after s, order = before ++ x :: after ∧
          Merging g addrs cap (g.active before) s ∧ g.skipped x = false ∧
          g.Unreadable addrs (g.active before) s x := by
  induction rest generalizing visited s with
  | nil =>
    rw [append_nil] at heq
    exact .inl ⟨s, rfl, heq ▸ hs⟩
  | cons x rest ih =>
    have hx : x ∉ visited := by
      rw [heq, nodup_append] at hnod
      exact fun hin => hnod.2.2 x hin x mem_cons_self rfl
    have hlen : visited.length < cap := by
      rw [heq, length_append, length_cons] at hroom
      omega
    have hin : ∀ z ∈ visited ++ [x], z < g.numNodes := by
      intro z hz
      refine hnodes z ?_
      rw [heq, ← singleton_append, ← append_assoc]
      exact mem_append_left _ hz
    rw [foldlM_cons]
    rcases hs.visit hcyc hlen hx (hsor visited x rest heq) hin hunif with
      ⟨s', hvis, hs'⟩ | ⟨⟨e, hvis⟩, hskip, hbad⟩
    · rw [bind_of_ok hvis]
      refine ih ?_ hs'
      rw [heq, append_assoc, singleton_append]
    · rw [hvis]
      exact .inr ⟨⟨e, rfl⟩, visited, x, rest, s, heq, hs, hskip, hbad⟩

end Loop

omit [DecidableEq E] in
theorem cseCapacity_pow (g : Graph E) : ∃ m, g.cseCapacity = 2 ^ m := bitCeil_pow _

theorem le_bitCeil (x : Nat) : x ≤ bitCeil x := by
  rw [bitCeil]
  split
  · omega
  · have := Nat.lt_log2_self (n := x - 1)
    omega

/-- **The pass on a graph whose nodes come after their inputs.** -/
theorem cseLoop_cases (hunif : g.UniformBodies addrs)
    {rank : Nat → Nat} (hrank : ∀ x, x < g.numNodes → ∀ d ∈ (g.node x).inputs, rank d < rank x)
    (hinp : ∀ e ∈ g.liveEdges, e.1 < g.numNodes) :
    (∃ s, g.cseLoop addrs = .ok s ∧
        Merging g addrs g.cseCapacity (g.active g.topologicalSort) s) ∨
      (∃ e, g.cseLoop addrs = .error e) ∧
        ∃ before x after s, g.topologicalSort = before ++ x :: after ∧
          Merging g addrs g.cseCapacity (g.active before) s ∧ g.skipped x = false ∧
          g.Unreadable addrs (g.active before) s x := by
  obtain ⟨m, hm⟩ := cseCapacity_pow g
  have hedg : ∀ e ∈ g.liveEdges, rank e.1 < rank e.2 := by
    rintro ⟨d, x⟩ he
    exact hrank x (mem_liveEdges.mp he).1 d (mem_liveEdges.mp he).2.2.2
  obtain ⟨hperm, hsor⟩ := topologicalSort_perm hedg hinp
  have hnod : g.topologicalSort.Nodup := hperm.nodup_iff.mpr (nodup_range.filter _)
  have hnodes : ∀ z ∈ g.topologicalSort, z < g.numNodes := fun z hz =>
    (mem_liveNodes.mp (hperm.mem_iff.mp hz)).1
  refine cseFold_cases (hm ▸ cseCell_fullCycle addrs m) hunif hnod ?_ hnodes ?_ rfl merging_start
  · intro before x after heq z hz hin
    rcases mem_append.mp hz with hz | hz
    · -- a node that was visited before reads only nodes that were visited before it
      obtain ⟨left, right, rfl⟩ := append_of_mem hz
      have hmemx : x ∈ g.liveNodes := hperm.mem_iff.mp (by rw [heq]; simp)
      have hmemz : z ∈ g.liveNodes := hperm.mem_iff.mp (by rw [heq]; simp)
      have hedge : (x, z) ∈ g.liveEdges :=
        mem_liveEdges.mpr ⟨(mem_liveNodes.mp hmemz).1, (mem_liveNodes.mp hmemz).2,
          (mem_liveNodes.mp hmemx).2, hin⟩
      have hleft := hsor left z (right ++ x :: after) (by rw [heq]; simp) x hedge
      rw [heq] at hnod
      simp only [append_assoc, cons_append] at hnod
      have := (nodup_append.mp hnod).2.2 x hleft x (by simp)
      exact this rfl
    · rw [mem_singleton.mp hz] at hin
      exact lt_irrefl _ (hrank x (hnodes x (by rw [heq]; simp)) x hin)
  · rw [hperm.length_eq]
    have := le_bitCeil (g.liveNodes.length * 2 + 1)
    rw [cseCapacity]
    omega

/-! ### The values of a graph -/

/-- What a node computes from its inputs, as far as the comparison sees it. -/
def label (g : Graph E) (x : Nat) : CseKey E :=
  ({ (g.node x).shell id with inputs := [] }, (g.node x).bodyKey)

/-- The values solve the equation of every node.  An input or a mutation has an operation of its
own, and any other node that of its label. -/
def Valued {V : Type} (g : Graph E) (own : Nat → List V → V) (run : CseKey E → List V → V)
    (val : Nat → V) : Prop :=
  ∀ x, val x = (if g.skipped x then own x else run (g.label x)) ((g.node x).inputs.map val)

section Values
variable {V : Type} {own : Nat → List V → V} {run : CseKey E → List V → V} {val : Nat → V}
  {s s' : CseState} {cap : Nat}

theorem cseProbe_hit {i n c : Nat} (h : cseProbe g s cap hash x i n = .ok (.hit c)) :
    ∃ hash' y, s.table c = some (hash', y) ∧ g.key s.canonical x = g.key s.canonical y := by
  induction n generalizing i with
  | zero => cases h
  | succ n ih =>
    rw [cseProbe] at h
    cases hcell : s.table (cseSlot cap hash i) with
    | none =>
      rw [hcell] at h
      cases h
    | some entry =>
      simp only [hcell] at h
      split at h
      · obtain ⟨same, heq, h⟩ := bind_ok h
        cases same with
        | false => exact ih h
        | true =>
          cases h
          refine ⟨_, _, hcell, ?_⟩
          by_cases hshell : (g.node x).shell s.canonical = (g.node entry.2).shell s.canonical
          · obtain ⟨hx, hy⟩ := comparable_of_ok hshell heq
            rw [cseEqual_of_comparable hshell hx hy] at heq
            exact Prod.ext hshell (of_decide_eq_true (Except.ok.inj heq))
          · rw [cseEqual_of_shell_ne hshell] at heq
            cases heq
      · exact ih h

theorem map_canonical (hkept : ∀ z, val (s.canonical z) = val z) (ids : List Nat) :
    (ids.map s.canonical).map val = ids.map val := by
  rw [map_map]
  exact map_congr_left fun d _ => hkept d

theorem cseVisit_kept (hval : g.Valued own run val) (hkept : ∀ z, val (s.canonical z) = val z)
    (h : g.cseVisit addrs cap s x = .ok s') : ∀ z, val (s'.canonical z) = val z := by
  rw [cseVisit] at h
  split at h
  · cases h
    exact hkept
  rename_i hskip
  obtain ⟨hash, -, h⟩ := bind_ok h
  obtain ⟨probe, hprobe, h⟩ := bind_ok h
  cases probe with
  | full | free c =>
    cases h
    exact hkept
  | hit c =>
    obtain ⟨hash', y, hcell, hkey⟩ := cseProbe_hit hprobe
    simp only [hcell] at h
    cases h
    -- the two nodes have one label, and inputs that the map sends to the same nodes
    have hlabel : g.label x = g.label y :=
      congrArg (fun k : CseKey E => ({ k.1 with inputs := [] }, k.2)) hkey
    have hinputs : (g.node x).inputs.map s.canonical = (g.node y).inputs.map s.canonical :=
      congrArg (fun k : CseKey E => k.1.inputs) hkey
    have hkind : (g.node x).kind = (g.node y).kind := congrArg (fun k : CseKey E => k.1.kind) hkey
    have hskip' : g.skipped y = g.skipped x := by rw [skipped, skipped, hkind]
    intro z
    by_cases hz : z = x
    · subst hz
      simp only [update_self]
      rw [hval y, hval z, hskip', if_neg hskip, if_neg hskip, hlabel,
        ← map_canonical hkept (g.node z).inputs, hinputs, map_canonical hkept]
    · simpa only [update_of_ne hz] using hkept z

omit [DecidableEq E] in
/-- The last sweep changes no field of a node but three. -/
theorem resolve_node (g : Graph E) (s : CseState) (x : Nat) : ∃ dead numUses inputs,
    (g.resolve s).node x = { g.node x with dead, numUses, inputs } ∧
      (inputs = (g.node x).inputs ∨ inputs = (g.node x).inputs.map s.canonical) := by
  rw [resolve]
  split
  · exact ⟨_, _, _, rfl, .inl rfl⟩
  · simp only [recomputeUses_eq, withUses]
    split
    · exact ⟨_, _, _, rfl, .inl rfl⟩
    · exact ⟨_, _, _, rfl, .inr rfl⟩

/-- **The pass keeps the meaning of a graph**, for any operations that depend on what is
compared: the values of the nodes solve the equations of the new graph, a node has the value of
the node that replaces it, and the outputs have the values that they had. -/
theorem cse_keeps_values {canonical : Nat → Nat} {g' : Graph E} (hval : g.Valued own run val)
    (h : g.eliminateCommonSubexpressions addrs = .ok (g', canonical)) :
    g'.Valued own run val ∧ (∀ z, val (canonical z) = val z) ∧
      g'.outputIds.map val = g.outputIds.map val := by
  obtain ⟨s, hloop, h⟩ := bind_ok h
  obtain ⟨rfl, rfl⟩ := Prod.mk.inj (Except.ok.inj h)
  have hkept : ∀ z, val (s.canonical z) = val z :=
    foldlM_inv (fun s : CseState => ∀ z, val (s.canonical z) = val z) (fun _ => rfl)
      (fun s x s' _ hs hvisit => cseVisit_kept hval hs hvisit) hloop
  refine ⟨fun x => ?_, hkept, ?_⟩
  · obtain ⟨dead, numUses, inputs, hnode, hin⟩ := resolve_node g s x
    have hin : inputs.map val = (g.node x).inputs.map val ∧
        inputs.length = (g.node x).inputs.length := by
      rcases hin with rfl | rfl
      · exact ⟨rfl, rfl⟩
      · exact ⟨map_canonical hkept _, length_map _⟩
    have hlabel : (g.resolve s).label x = g.label x := by
      simp only [label, hnode, shell, hin.2]
      rfl
    have hskip : (g.resolve s).skipped x = g.skipped x := by simp only [skipped, hnode]
    rw [hval x, hlabel, hskip, hnode, hin.1]
  · rw [resolve]
    split
    · rfl
    · rw [recomputeUses_eq]
      exact map_canonical hkept _

end Values

/-- Two constants, and a node that reads both. -/
def twins : Graph Unit where
  numNodes := 3
  node
    | 2 => { kind := .sort, inputs := [0, 1] }
    | _ => { kind := .constant }
  outputIds := [1, 2]

/-- The second constant is eliminated, and the node that read it has the value that it had. -/
theorem cse_keeps_values_twins : ∃ g' canonical,
    twins.eliminateCommonSubexpressions ⟨fun _ => 0, id⟩ = .ok (g', canonical) ∧
      g'.outputIds = [0, 2] ∧ g'.outputIds.map (fun x => if x = 2 then 11 else 5) = [5, 11] := by
  obtain ⟨r, hpass, houts⟩ : ∃ r, twins.eliminateCommonSubexpressions ⟨fun _ => 0, id⟩ = .ok r ∧
      r.1.outputIds = [0, 2] := ok_of_eval (by decide +kernel)
  have hval : twins.Valued (fun _ _ => 0) (fun _ vals => if vals = [] then 5 else vals.sum + 1)
      fun x => if x = 2 then 11 else 5 := by
    rintro (_ | _ | _ | x) <;> rfl
  exact ⟨r.1, r.2, hpass, houts, (cse_keeps_values hval hpass).2.2⟩

end Graph
end Crucible
