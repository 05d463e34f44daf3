import Crucible.Loops
import Crucible.PreorderWalk
import Mathlib.Data.List.TakeWhile

/-! # The replicated list

`RgaList` keeps one node for each id: the id that it comes after, a value and a tombstone.
Inserts under one id are resolved by the smaller pair of link and value, tombstones by
disjunction.  `materialize` walks the nodes from the root id, the smallest id first.

The nodes of a replica are a function of the operations that it accepted.  An erase of an id
that is not there yet is not accepted: it returns false and leaves no trace.  A node with a
new largest id is shown at the end of everything below the node that it was inserted after,
and not right behind that node.
-/
namespace Crucible
open List Function

structure RgaInsert (ι τ : Type) where
  id : ι
  after : ι
  value : τ
deriving DecidableEq

structure RgaNode (ι τ : Type) extends RgaInsert ι τ where
  tombstone : Bool := false
deriving DecidableEq

def RgaInsert.node {ι τ : Type} (op : RgaInsert ι τ) : RgaNode ι τ := { op with }

/-- The marks of the traversal and the values that it emitted. -/
structure RgaWalk (τ : Type) where
  visited : Nat → Bool := fun _ => false
  out : List τ := []

namespace RgaList

section Model
variable {ι τ : Type} [LinearOrder ι] [LinearOrder τ] (cap : Nat)
  (state : List (RgaNode ι τ))

def findIn (id : ι) : Option Nat :=
  state.findIdx? fun node => decide (node.id = id)

/-- The node that stays when one is upserted over another one. -/
def resolve (existing incoming : RgaNode ι τ) : RgaNode ι τ :=
  if incoming.after < existing.after ∨
      incoming.after = existing.after ∧ incoming.value < existing.value then
    { incoming with tombstone := existing.tombstone || incoming.tombstone }
  else { existing with tombstone := existing.tombstone || incoming.tombstone }

def upsertInto (incoming : RgaNode ι τ) : List (RgaNode ι τ) × Bool :=
  match findIn state incoming.id with
  | some i => (state.modify i fun existing => resolve existing incoming, true)
  | none => if cap ≤ state.length then (state, false) else (state ++ [incoming], true)

def insertAfter (op : RgaInsert ι τ) : List (RgaNode ι τ) × Bool :=
  upsertInto cap state op.node

def erase (id : ι) : List (RgaNode ι τ) × Bool :=
  match findIn state id with
  | some i => (state.modify i fun node => { node with tombstone := true }, true)
  | none => (state, false)

/-- The loop of `merge_state_into_`. -/
def upsertAll (state : List (RgaNode ι τ)) : List (RgaNode ι τ) → List (RgaNode ι τ) × Bool
  | [] => (state, true)
  | incoming :: others =>
    match upsertInto cap state incoming with
    | (state', true) => upsertAll state' others
    | (state', false) => (state', false)

def mergeStateInto (target other : List (RgaNode ι τ)) : List (RgaNode ι τ) × Bool :=
  if cap < other.length then (target, false) else upsertAll cap target other

/-- `merge`: the copy replaces the target only if every step succeeded. -/
def merge (target other : List (RgaNode ι τ)) : List (RgaNode ι τ) × Bool :=
  match mergeStateInto cap target other with
  | (staged, true) => (staged, true)
  | (_, false) => (target, false)

def scanSibling (parent : ι) (visited : Nat → Bool)
    (next : Option Nat) (i : Nat) : Option Nat :=
  match state[i]? with
  | none => next
  | some node =>
    if visited i || !decide (node.after = parent) then next
    else match next with
      | none => some i
      | some j =>
        match state[j]? with
        | none => some i
        | some best => if node.id < best.id then some i else some j

/-- The unvisited node after `parent` that has the smallest id. -/
def nextSibling (parent : ι) (visited : Nat → Bool) : Option Nat :=
  (range state.length).foldl (scanSibling state parent visited) none

/-- The marks and the values after node `i` was visited. -/
def visit (w : RgaWalk τ) (i : Nat) (node : RgaNode ι τ) : RgaWalk τ :=
  { visited := update w.visited i true
    out := if node.tombstone = false ∧ w.out.length < cap then w.out ++ [node.value] else w.out }

/-- `emit_after_`, with a bound on the calls. -/
def emitAfter : Nat → ι → RgaWalk τ → Option (RgaWalk τ)
  | 0, _, _ => none
  | fuel + 1, parent, w =>
    match nextSibling state parent w.visited with
    | none => some w
    | some i =>
      match state[i]? with
      | none => some w
      | some node =>
        match emitAfter fuel node.id (visit cap w i node) with
        | none => none
        | some w' => emitAfter fuel parent w'

def materialize (root : ι) (state : List (RgaNode ι τ)) : Option (List τ) :=
  (emitAfter cap state (state.length + 1) root {}).map RgaWalk.out

/-! ### The traversal is a walk -/

def nodes : Set (RgaNode ι τ) := {node | node ∈ state}

/-- The document order of a state: the walk from the root, tombstones included. -/
def DocumentOrder (root : ι) (state order : List (RgaNode ι τ)) : Prop :=
  Walk (fun node => node.id) (fun node => node.after) (nodes state) root ∅ order

def visible (order : List (RgaNode ι τ)) : List τ :=
  (order.filter fun node => !node.tombstone).map fun node => node.value

def seen (visited : Nat → Bool) : Set (RgaNode ι τ) :=
  {node | ∃ i, state[i]? = some node ∧ visited i = true}

def unvisited (visited : Nat → Bool) : Nat :=
  ((Finset.range state.length).filter fun i => visited i = false).card

/-- Index `i` holds an unvisited node after `parent`. -/
def Sibling (parent : ι) (visited : Nat → Bool) (i : Nat)
    (node : RgaNode ι τ) : Prop :=
  state[i]? = some node ∧ node.after = parent ∧ visited i = false

/-- The scan finds an unvisited sibling with the smallest id among those that it passed. -/
structure ScanInv (parent : ι) (visited : Nat → Bool) (k : Nat)
    (next : Option Nat) : Prop where
  found : ∀ i, next = some i → ∃ node, Sibling state parent visited i node
  least : ∀ j other, j < k → Sibling state parent visited j other →
    ∃ i node, next = some i ∧ state[i]? = some node ∧ node.id ≤ other.id

/-- One node for each id, and no more nodes than there is room for. -/
structure WellFormed (cap : Nat) (state : List (RgaNode ι τ)) : Prop where
  nodup : (state.map fun node => node.id).Nodup
  bound : state.length ≤ cap

/-- The order in which conflicting inserts of one id are resolved. -/
def rank (op : RgaInsert ι τ) : Lex (ι × τ) := toLex (op.after, op.value)

/-- The inserts that the nodes of a state stand for. -/
def insertsOf : Set (RgaInsert ι τ) :=
  {op | ∃ node ∈ state, node.toRgaInsert = op}

def erasedOf : Set ι :=
  {id | ∃ node ∈ state, node.id = id ∧ node.tombstone = true}

end Model

variable {ι τ : Type} {cap i fuel : Nat} {state : List (RgaNode ι τ)} {parent id root : ι}
  {visited : Nat → Bool} {node existing : RgaNode ι τ}

/-! ### Nodes by their ids -/

theorem index_unique (hnod : (state.map fun node => node.id).Nodup) {j : Nat}
    {node' : RgaNode ι τ} (hi : state[i]? = some node) (hj : state[j]? = some node')
    (hid : node.id = node'.id) : i = j := by
  have hids : ∀ {k : Nat} {other : RgaNode ι τ}, state[k]? = some other →
      (state.map fun node => node.id)[k]? = some other.id := fun h => by simp [h]
  have hlt := (List.getElem?_eq_some_iff.mp (hids hi)).1
  exact (getElem?_inj hlt hnod).mp ((hids hi).trans (hid ▸ (hids hj).symm))

theorem nodes_injOn (hnod : (state.map fun node => node.id).Nodup) :
    Set.InjOn (fun node : RgaNode ι τ => node.id) (nodes state) :=
  fun _ hnode _ hnode' hid => inj_on_of_nodup_map hnod hnode hnode' hid

theorem mem_seen_iff (hnod : (state.map fun node => node.id).Nodup) (hi : state[i]? = some node) :
    node ∈ seen state visited ↔ visited i = true := by
  constructor
  · rintro ⟨j, hj, hvis⟩
    obtain rfl := index_unique hnod hj hi rfl
    exact hvis
  · exact fun hvis => ⟨i, hi, hvis⟩

theorem seen_update (hi : state[i]? = some node) :
    seen state (update visited i true) = insert node (seen state visited) := by
  ext other
  constructor
  · rintro ⟨j, hj, hvis⟩
    by_cases hji : j = i
    · subst hji
      exact .inl (Option.some.inj (hj.symm.trans hi))
    · rw [update_of_ne hji] at hvis
      exact .inr ⟨j, hj, hvis⟩
  · rintro (rfl | ⟨j, hj, hvis⟩)
    · exact ⟨i, hi, update_self ..⟩
    · refine ⟨j, hj, ?_⟩
      by_cases hji : j = i
      · rw [hji, update_self]
      · rw [update_of_ne hji]
        exact hvis

theorem unvisited_update (hi : state[i]? = some node) (hvis : visited i = false) :
    unvisited state (update visited i true) + 1 = unvisited state visited := by
  obtain ⟨hlt, -⟩ := List.getElem?_eq_some_iff.mp hi
  have hmem : i ∈ (Finset.range state.length).filter fun j => visited j = false :=
    Finset.mem_filter.mpr ⟨Finset.mem_range.mpr hlt, hvis⟩
  have herase : ((Finset.range state.length).filter fun j =>
      update visited i true j = false) =
      ((Finset.range state.length).filter fun j => visited j = false).erase i := by
    ext j
    by_cases hji : j = i
    · simp [hji]
    · simp [hji]
  rw [unvisited, herase]
  exact Finset.card_erase_add_one hmem

theorem unvisited_le (visited : Nat → Bool) : unvisited state visited ≤ state.length := by
  apply (Finset.card_filter_le _ _).trans
  rw [Finset.card_range]

theorem insertsOf_cons (node : RgaNode ι τ) (rest : List (RgaNode ι τ)) :
    insertsOf (node :: rest) = {node.toRgaInsert} ∪ insertsOf rest := by
  ext op
  simp [insertsOf, eq_comm]

theorem erasedOf_cons (node : RgaNode ι τ) (rest : List (RgaNode ι τ)) :
    erasedOf (node :: rest) = {id | id = node.id ∧ node.tombstone = true} ∪ erasedOf rest := by
  ext id
  simp [erasedOf, @eq_comm _ id]

theorem WellFormed.append (h : WellFormed cap state)
    (hnew : ∀ other ∈ state, other.id ≠ node.id) (hroom : state.length < cap) :
    WellFormed cap (state ++ [node]) := by
  constructor
  · rw [map_append, nodup_append]
    refine ⟨h.nodup, nodup_singleton _, ?_⟩
    intro id hid id' hid' hsame
    obtain ⟨other, hoth, rfl⟩ := mem_map.mp hid
    rw [map_singleton, mem_singleton] at hid'
    exact hnew other hoth (hsame.trans hid')
  · rw [length_append, length_singleton]
    omega

theorem rank_injective {op op' : RgaInsert ι τ} (hid : op.id = op'.id) (h : rank op = rank op') :
    op = op' := by
  obtain ⟨haft, hval⟩ := Prod.mk.inj (toLex.injective h)
  cases op
  simp_all

variable [LinearOrder ι]

theorem findIn_some (h : findIn state id = some i) :
    ∃ node, state[i]? = some node ∧ node.id = id := by
  obtain ⟨hlt, hid, -⟩ := findIdx?_eq_some_iff_getElem.mp h
  exact ⟨state[i], getElem?_eq_getElem hlt, of_decide_eq_true hid⟩

theorem findIn_none (h : findIn state id = none) : ∀ node ∈ state, node.id ≠ id := by
  intro node hnode
  have hnot := findIdx?_eq_none_iff.mp h node hnode
  exact of_decide_eq_false hnot

theorem WellFormed.modify (h : WellFormed cap state) (hfind : findIn state id = some i)
    {f : RgaNode ι τ → RgaNode ι τ} (hf : ∀ node, node.id = id → (f node).id = id) :
    WellFormed cap (state.modify i f) ∧ ∃ existing ∈ state, existing.id = id ∧
      ∀ other, other ∈ state.modify i f ↔
        other = f existing ∨ other ∈ state ∧ other.id ≠ (f existing).id := by
  obtain ⟨existing, hi, hid⟩ := findIn_some hfind
  have hexis := mem_of_getElem? hi
  rw [modify_findIdx? h.nodup hfind]
  refine ⟨⟨?_, by simpa using h.bound⟩, existing, hexis, hid, fun other => ?_⟩
  · rw [map_map]
    convert h.nodup using 2
    funext node
    dsimp only [comp_apply]
    split
    case isTrue hnode => exact (hf node hnode).trans hnode.symm
    case isFalse => rfl
  · rw [mem_map, hf existing hid]
    constructor
    · rintro ⟨node, hnode, rfl⟩
      split
      case isTrue hsame =>
        rw [inj_on_of_nodup_map h.nodup hnode hexis (hsame.trans hid.symm)]
        exact .inl rfl
      case isFalse hne => exact .inr ⟨hnode, hne⟩
    · rintro (rfl | ⟨hoth, hne⟩)
      · exact ⟨existing, hexis, if_pos hid⟩
      · exact ⟨other, hoth, if_neg hne⟩

theorem scanSibling_inv {k : Nat} {next : Option Nat} (h : ScanInv state parent visited k next) :
    ScanInv state parent visited (k + 1) (scanSibling state parent visited next k) := by
  by_cases hsib : ∃ here, Sibling state parent visited k here
  · obtain ⟨here, hk, haft, hnew⟩ := hsib
    -- the sibling at `k` is taken if nothing before it has as small an id
    have hscan : (scanSibling state parent visited next k = some k ∧
          ∀ i best, next = some i → state[i]? = some best → here.id ≤ best.id) ∨
        scanSibling state parent visited next k = next ∧
          ∃ i best, next = some i ∧ state[i]? = some best ∧ best.id ≤ here.id := by
      cases next with
      | none => exact .inl ⟨by simp [scanSibling, hk, haft, hnew], by simp⟩
      | some i =>
        obtain ⟨best, hbest, -, -⟩ := h.found i rfl
        by_cases hlt : here.id < best.id
        · refine .inl ⟨by simp [scanSibling, hk, haft, hnew, hbest, hlt], ?_⟩
          rintro _ other ⟨⟩ hoth
          exact Option.some.inj (hbest.symm.trans hoth) ▸ hlt.le
        · exact .inr ⟨by simp [scanSibling, hk, haft, hnew, hbest, hlt], i, best, rfl, hbest,
            not_lt.mp hlt⟩
    rcases hscan with ⟨heq, hless⟩ | ⟨heq, hbest⟩
    · rw [heq]
      refine ⟨fun i hi => Option.some.inj hi ▸ ⟨here, hk, haft, hnew⟩, fun j other hj hoth => ?_⟩
      rcases Nat.lt_succ_iff_lt_or_eq.mp hj with hlt | rfl
      · obtain ⟨i, best, hnext, hi, hle⟩ := h.least j other hlt hoth
        exact ⟨k, here, rfl, hk, (hless i best hnext hi).trans hle⟩
      · exact ⟨j, here, rfl, hk, (Option.some.inj (hk.symm.trans hoth.1) ▸ le_rfl)⟩
    · rw [heq]
      refine ⟨h.found, fun j other hj hoth => ?_⟩
      rcases Nat.lt_succ_iff_lt_or_eq.mp hj with hlt | rfl
      · exact h.least j other hlt hoth
      · cases hk.symm.trans hoth.1
        exact hbest
  · have heq : scanSibling state parent visited next k = next := by
      cases hk : state[k]? with
      | none => simp only [scanSibling, hk]
      | some here =>
        have hskip : (visited k || !decide (here.after = parent)) = true := by
          by_contra hno
          exact hsib ⟨here, hk, by simpa [and_comm] using hno⟩
        simp only [scanSibling, hk, hskip, if_true]
    rw [heq]
    refine ⟨h.found, fun j other hj hoth => ?_⟩
    rcases Nat.lt_succ_iff_lt_or_eq.mp hj with hlt | rfl
    · exact h.least j other hlt hoth
    · exact absurd ⟨other, hoth⟩ hsib

theorem nextSibling_inv (state : List (RgaNode ι τ)) (parent : ι) (visited : Nat → Bool) :
    ScanInv state parent visited state.length (nextSibling state parent visited) := by
  apply foldl_range_inv (ScanInv state parent visited)
  · exact ⟨by simp, fun j _ hj => absurd hj (Nat.not_lt_zero j)⟩
  · exact fun i next _ hinv => scanSibling_inv hinv

/-- What a traversal from a parent leaves. -/
structure Emitted (cap : Nat) (state : List (RgaNode ι τ)) (parent : ι) (w w' : RgaWalk τ)
    (new : List (RgaNode ι τ)) : Prop where
  walk : Walk (fun node => node.id) (fun node => node.after) (nodes state) parent
    (seen state w.visited) new
  seen_eq : seen state w'.visited = seen state w.visited ∪ {node | node ∈ new}
  out_eq : w'.out = w.out ++ visible new
  fewer : unvisited state w'.visited ≤ unvisited state w.visited
  room : w'.out.length + unvisited state w'.visited ≤ cap

/-- **The traversal ends**, from any marks, as long as its bound exceeds the number of
unmarked nodes, **and follows the walk** if no id repeats. -/
theorem emitAfter_spec (parent : ι) (w : RgaWalk τ) (hfuel : unvisited state w.visited < fuel) :
    ∃ w', emitAfter cap state fuel parent w = some w' ∧
      unvisited state w'.visited ≤ unvisited state w.visited ∧
      ((state.map fun node => node.id).Nodup → w.out.length + unvisited state w.visited ≤ cap →
        ∃ new, Emitted cap state parent w w' new) := by
  induction fuel generalizing parent w with
  | zero => exact absurd hfuel (Nat.not_lt_zero _)
  | succ fuel ih =>
    have hscan := nextSibling_inv state parent w.visited
    rw [emitAfter]
    cases hnext : nextSibling state parent w.visited with
    | none =>
      refine ⟨w, rfl, le_rfl, fun _ hroom => ⟨[], ?_, by simp, by simp [visible], le_rfl, hroom⟩⟩
      apply Walk.done
      intro node hnode haft
      obtain ⟨i, hi⟩ := mem_iff_getElem?.mp hnode
      obtain ⟨hlt, -⟩ := List.getElem?_eq_some_iff.mp hi
      refine ⟨i, hi, ?_⟩
      by_contra hnot
      obtain ⟨j, _, hj, -⟩ := hscan.least i node hlt ⟨hi, haft, Bool.eq_false_of_not_eq_true hnot⟩
      rw [hnext] at hj
      cases hj
    | some i =>
      obtain ⟨node, hi, haft, hunv⟩ := hscan.found i hnext
      have hless : unvisited state (visit cap w i node).visited + 1 = unvisited state w.visited :=
        unvisited_update hi hunv
      obtain ⟨w₁, hinn, hfew, hspec⟩ :=
        ih node.id (visit cap w i node) (by omega)
      obtain ⟨w₂, hrest, hfew', hspec'⟩ := ih parent w₁ (by omega)
      simp only [hi, hinn, hrest]
      refine ⟨w₂, rfl, by omega, fun hnod hroom => ?_⟩
      have hout : (visit cap w i node).out = w.out ++ visible [node] := by
        rw [visit]
        cases htomb : node.tombstone with
        | false => simp [visible, htomb, show w.out.length < cap by omega]
        | true => simp [visible, htomb]
      have hvis : (visible [node]).length ≤ 1 := by
        rw [visible, length_map]
        exact (length_filter_le _ _)
      obtain ⟨inner, hemit⟩ := hspec hnod (by rw [hout, length_append]; omega)
      obtain ⟨rest, hemit'⟩ := hspec' hnod hemit.room
      refine ⟨node :: (inner ++ rest), ?_, ?_, ?_, by omega, hemit'.room⟩
      · have hwalk := hemit.walk
        rw [visit, seen_update hi] at hwalk
        have hwalk' := hemit'.walk
        rw [hemit.seen_eq, visit, seen_update hi] at hwalk'
        refine Walk.visit ⟨mem_of_getElem? hi, haft, ?_, ?_⟩ hwalk hwalk'
        · rw [mem_seen_iff hnod hi, hunv]
          exact Bool.false_ne_true
        · intro other hoth haft' hnot
          obtain ⟨j, hj⟩ := mem_iff_getElem?.mp hoth
          obtain ⟨hlt, -⟩ := List.getElem?_eq_some_iff.mp hj
          rw [mem_seen_iff hnod hj, Bool.not_eq_true] at hnot
          obtain ⟨i', node', hsome, hi', hle⟩ := hscan.least j other hlt ⟨hj, haft', hnot⟩
          cases hnext.symm.trans hsome
          cases hi.symm.trans hi'
          exact hle
      · rw [hemit'.seen_eq, hemit.seen_eq, visit, seen_update hi, visited_append]
      · rw [hemit'.out_eq, hemit.out_eq, hout]
        simp [visible, filter_cons]
        cases node.tombstone <;> simp

theorem emitAfter_ends (cap : Nat) (root : ι) (state : List (RgaNode ι τ)) :
    ∃ w', emitAfter cap state (state.length + 1) root {} = some w' ∧
      ((state.map fun node => node.id).Nodup → 0 + unvisited state (fun _ => false) ≤ cap →
        ∃ new, Emitted cap state root {} w' new) := by
  obtain ⟨w', hemit, -, hspec⟩ := emitAfter_spec root {} (Nat.lt_succ_of_le (unvisited_le _))
  exact ⟨w', hemit, hspec⟩

/-- Every state is materialized, with cycles, dangling links and repeated ids. -/
theorem materialize_ends (cap : Nat) (root : ι) (state : List (RgaNode ι τ)) :
    ∃ out, materialize cap root state = some out := by
  obtain ⟨w', hemit, -⟩ := emitAfter_ends cap root state
  exact ⟨w'.out, by rw [materialize, hemit, Option.map_some]⟩

/-- **A well-formed state shows its document order**, without the tombstones. -/
theorem WellFormed.materialize (h : WellFormed cap state) (root : ι) :
    ∃ order, DocumentOrder root state order ∧
      RgaList.materialize cap root state = some (visible order) := by
  have hnone : seen state (fun _ => false) = ∅ := by
    rw [Set.eq_empty_iff_forall_notMem]
    rintro node ⟨i, -, hi⟩
    cases hi
  obtain ⟨w', hemit, hspec⟩ := emitAfter_ends cap root state
  obtain ⟨order, hemitt⟩ := hspec h.nodup (by
    rw [zero_add]
    exact (unvisited_le _).trans h.bound)
  refine ⟨order, ?_, ?_⟩
  · have hwalk := hemitt.walk
    rw [hnone] at hwalk
    exact hwalk
  · rw [RgaList.materialize, hemit, Option.map_some, hemitt.out_eq, nil_append]

/-! ### What a replica accepted -/

variable [LinearOrder τ]

variable (cap) in
/-- A replica's state with the inserts and the erased ids that it accepted, directly or
through merges with states off the wire and with other replicas. -/
inductive RgaReplica : List (RgaNode ι τ) → Set (RgaInsert ι τ) → Set ι → Prop where
  | empty : RgaReplica [] ∅ ∅
  | insert {s : List (RgaNode ι τ)} {I : Set (RgaInsert ι τ)} {E : Set ι} (op : RgaInsert ι τ)
      (hs : RgaReplica s I E) (hok : (insertAfter cap s op).2 = true) :
      RgaReplica (insertAfter cap s op).1 (I ∪ {op}) E
  | erase {s : List (RgaNode ι τ)} {I : Set (RgaInsert ι τ)} {E : Set ι} (id : ι)
      (hs : RgaReplica s I E) (hok : (erase s id).2 = true) :
      RgaReplica (erase s id).1 I (E ∪ {id})
  | gossip {s : List (RgaNode ι τ)} {I : Set (RgaInsert ι τ)} {E : Set ι}
      (other : List (RgaNode ι τ)) (hs : RgaReplica s I E) (hok : (merge cap s other).2 = true) :
      RgaReplica (merge cap s other).1 (I ∪ insertsOf other) (E ∪ erasedOf other)
  | merge {s t : List (RgaNode ι τ)} {I J : Set (RgaInsert ι τ)} {E F : Set ι}
      (hs : RgaReplica s I E) (ht : RgaReplica t J F) (hok : (merge cap s t).2 = true) :
      RgaReplica (merge cap s t).1 (I ∪ J) (E ∪ F)

/-- The nodes of a state are those that a set of inserts and erases determines: one node
for each inserted id, with the least link and value, erased if the id was. -/
structure Describes (cap : Nat) (state : List (RgaNode ι τ)) (I : Set (RgaInsert ι τ))
    (E : Set ι) : Prop extends WellFormed cap state where
  known : ∀ op ∈ I, ∃ node ∈ state, node.id = op.id
  chosen : ∀ node ∈ state, node.toRgaInsert ∈ I
  least : ∀ node ∈ state, ∀ op ∈ I, op.id = node.id → rank node.toRgaInsert ≤ rank op
  erased : ∀ node ∈ state, node.tombstone = true ↔ node.id ∈ E
  erased_known : ∀ id ∈ E, ∃ node ∈ state, node.id = id

variable {I J : Set (RgaInsert ι τ)} {E F : Set ι}

theorem Describes.put {state' : List (RgaNode ι τ)}
    (h : Describes cap state I E) (hwf : WellFormed cap state')
    (hput : ∀ other, other ∈ state' ↔ other = node ∨ other ∈ state ∧ other.id ≠ node.id)
    (hsub : I ⊆ J) (hold : ∀ op ∈ J, op.id ≠ node.id → op ∈ I) (hmem : node.toRgaInsert ∈ J)
    (hleast : ∀ op ∈ J, op.id = node.id → rank node.toRgaInsert ≤ rank op)
    (hE : ∀ id, id ≠ node.id → (id ∈ F ↔ id ∈ E))
    (htomb : node.tombstone = true ↔ node.id ∈ F) : Describes cap state' J F := by
  refine ⟨hwf, ?_, ?_, ?_, ?_, ?_⟩
  · intro op hop
    by_cases hsame : op.id = node.id
    · exact ⟨node, (hput node).mpr (.inl rfl), hsame.symm⟩
    · obtain ⟨other, hoth, hid⟩ := h.known op (hold op hop hsame)
      exact ⟨other, (hput other).mpr (.inr ⟨hoth, hid.symm ▸ hsame⟩), hid⟩
  · intro other hoth
    rcases (hput other).mp hoth with rfl | ⟨hoth, -⟩
    · exact hmem
    · exact hsub (h.chosen other hoth)
  · intro other hoth op hop hsame
    rcases (hput other).mp hoth with rfl | ⟨hoth, hne⟩
    · exact hleast op hop hsame
    · exact h.least other hoth op (hold op hop (hsame ▸ hne)) hsame
  · intro other hoth
    rcases (hput other).mp hoth with rfl | ⟨hoth, hne⟩
    · exact htomb
    · rw [hE other.id hne]
      exact h.erased other hoth
  · intro id hmemF
    by_cases hsame : id = node.id
    · exact ⟨node, (hput node).mpr (.inl rfl), hsame.symm⟩
    · obtain ⟨other, hoth, rfl⟩ := h.erased_known id ((hE id hsame).mp hmemF)
      exact ⟨other, (hput other).mpr (.inr ⟨hoth, hsame⟩), rfl⟩

theorem resolve_tombstone (existing incoming : RgaNode ι τ) :
    (resolve existing incoming).tombstone = (existing.tombstone || incoming.tombstone) := by
  rw [resolve]
  split_ifs <;> rfl

theorem resolve_cases (existing incoming : RgaNode ι τ) :
    (resolve existing incoming).toRgaInsert = incoming.toRgaInsert ∧
        rank incoming.toRgaInsert ≤ rank existing.toRgaInsert ∨
      (resolve existing incoming).toRgaInsert = existing.toRgaInsert ∧
        rank existing.toRgaInsert ≤ rank incoming.toRgaInsert := by
  by_cases hless : rank incoming.toRgaInsert < rank existing.toRgaInsert
  · refine .inl ⟨?_, hless.le⟩
    rw [resolve, if_pos (Prod.Lex.toLex_lt_toLex.mp hless)]
  · refine .inr ⟨?_, not_lt.mp hless⟩
    rw [resolve, if_neg fun hlex => hless (Prod.Lex.toLex_lt_toLex.mpr hlex)]

theorem Describes.upsertInto (h : Describes cap state I E) (incoming : RgaNode ι τ)
    (hok : (upsertInto cap state incoming).2 = true) :
    Describes cap (upsertInto cap state incoming).1 (I ∪ {incoming.toRgaInsert})
      (E ∪ {id | id = incoming.id ∧ incoming.tombstone = true}) := by
  have hold : ∀ op ∈ I ∪ {incoming.toRgaInsert}, op.id ≠ incoming.id → op ∈ I := by
    rintro op (hop | rfl) hne
    · exact hop
    · exact absurd rfl hne
  have hE : ∀ id, id ≠ incoming.id →
      (id ∈ E ∪ {id | id = incoming.id ∧ incoming.tombstone = true} ↔ id ∈ E) := fun id hne =>
    ⟨fun hmem => hmem.resolve_right fun hnew => hne hnew.1, Or.inl⟩
  rw [RgaList.upsertInto] at hok ⊢
  cases hfind : findIn state incoming.id with
  | none =>
    simp only [hfind] at hok ⊢
    by_cases hfull : cap ≤ state.length
    · rw [if_pos hfull] at hok
      cases hok
    rw [if_neg hfull]
    have hnew := findIn_none hfind
    apply h.put (h.toWellFormed.append hnew (not_le.mp hfull)) ?_ Set.subset_union_left
      hold ?_ ?_ hE
    · constructor
      · exact fun htomb => .inr ⟨rfl, htomb⟩
      · rintro (hmem | ⟨-, htomb⟩)
        · obtain ⟨known, hknown, hid⟩ := h.erased_known _ hmem
          exact absurd hid (hnew known hknown)
        · exact htomb
    · intro other
      rw [mem_append, mem_singleton, or_comm]
      exact or_congr_right ⟨fun hoth => ⟨hoth, hnew other hoth⟩, And.left⟩
    · exact .inr rfl
    · rintro op (hop | rfl) hsame
      · obtain ⟨known, hknown, hid⟩ := h.known op hop
        exact absurd (hid.trans hsame) (hnew known hknown)
      · exact le_rfl
  | some i =>
    have hres : ∀ node : RgaNode ι τ, node.id = incoming.id →
        (resolve node incoming).id = incoming.id := by
      intro node hid
      rcases resolve_cases node incoming with ⟨heq, -⟩ | ⟨heq, -⟩ <;> rw [heq]
      exact hid
    obtain ⟨hwf, existing, hexis, hid, hput⟩ := h.toWellFormed.modify hfind hres
    have hid' := hres existing hid
    have hsame := hid'.trans hid.symm
    apply h.put hwf hput Set.subset_union_left
      (fun op hop hne => hold op hop (hid' ▸ hne)) ?_ ?_ fun id hne => hE id (hid' ▸ hne)
    · rw [resolve_tombstone, Bool.or_eq_true, h.erased existing hexis, hid, hid']
      simp
    · rcases resolve_cases existing incoming with ⟨heq, -⟩ | ⟨heq, -⟩
      · exact .inr heq
      · rw [heq]
        exact .inl (h.chosen existing hexis)
    · intro op hop hopid
      have hkept : op ∈ I → rank existing.toRgaInsert ≤ rank op := fun hop =>
        h.least existing hexis op hop (hopid.trans hsame)
      rcases resolve_cases existing incoming with ⟨heq, hle⟩ | ⟨heq, hle⟩ <;> rw [heq]
      · rcases hop with hop | rfl
        · exact hle.trans (hkept hop)
        · exact le_rfl
      · rcases hop with hop | rfl
        · exact hkept hop
        · exact hle

theorem Describes.erase (h : Describes cap state I E)
    (hok : (erase state id).2 = true) : Describes cap (erase state id).1 I (E ∪ {id}) := by
  rw [RgaList.erase] at hok ⊢
  cases hfind : findIn state id with
  | none =>
    rw [hfind] at hok
    cases hok
  | some i =>
    obtain ⟨hwf, existing, hexis, rfl, hput⟩ := h.toWellFormed.modify hfind
      (f := fun node => { node with tombstone := true }) fun _ hnode => hnode
    apply h.put hwf hput subset_rfl
    · exact fun op hop _ => hop
    · exact h.chosen existing hexis
    · exact h.least existing hexis
    · exact fun id hne => ⟨fun hmem => hmem.resolve_right hne, Or.inl⟩
    · exact ⟨fun _ => .inr rfl, fun _ => rfl⟩

theorem Describes.upsertAll (h : Describes cap state I E) (others : List (RgaNode ι τ))
    (hok : (upsertAll cap state others).2 = true) :
    Describes cap (upsertAll cap state others).1 (I ∪ insertsOf others)
      (E ∪ erasedOf others) := by
  induction others generalizing state I E with
  | nil =>
    have hnone : insertsOf ([] : List (RgaNode ι τ)) = ∅ := by simp [insertsOf]
    have hnone' : erasedOf ([] : List (RgaNode ι τ)) = ∅ := by simp [erasedOf]
    rw [hnone, hnone', Set.union_empty, Set.union_empty]
    exact h
  | cons incoming others ih =>
    rw [insertsOf_cons, erasedOf_cons, ← Set.union_assoc, ← Set.union_assoc]
    rw [RgaList.upsertAll] at hok ⊢
    have hdone := h.upsertInto incoming
    rcases hstep : RgaList.upsertInto cap state incoming with ⟨state', ok⟩
    rw [hstep] at hok hdone
    cases ok with
    | false => cases hok
    | true => exact ih (hdone rfl) hok

variable {other back front waiting : List (RgaNode ι τ)}

theorem Describes.merge (h : Describes cap state I E) (hok : (merge cap state other).2 = true) :
    Describes cap (merge cap state other).1 (I ∪ insertsOf other) (E ∪ erasedOf other) := by
  have hdone := h.upsertAll other
  rw [RgaList.merge, mergeStateInto] at hok ⊢
  by_cases hlar : cap < other.length
  · rw [if_pos hlar] at hok
    cases hok
  · rw [if_neg hlar] at hok ⊢
    rcases hall : RgaList.upsertAll cap state other with ⟨staged, ok⟩
    rw [hall] at hok hdone
    cases ok with
    | false => cases hok
    | true => exact hdone rfl

theorem Describes.absorb (h : Describes cap state (I ∪ insertsOf other) (E ∪ erasedOf other))
    (hoth : Describes cap other J F) : Describes cap state (I ∪ J) (E ∪ F) := by
  have hins : insertsOf other ⊆ J := by
    rintro op ⟨node, hnode, rfl⟩
    exact hoth.chosen node hnode
  have heras : erasedOf other = F := by
    ext id
    constructor
    · rintro ⟨node, hnode, rfl, htomb⟩
      exact (hoth.erased node hnode).mp htomb
    · intro hid
      obtain ⟨node, hnode, rfl⟩ := hoth.erased_known id hid
      exact ⟨node, hnode, rfl, (hoth.erased node hnode).mpr hid⟩
  rw [heras] at h
  refine ⟨h.toWellFormed, ?_, ?_, ?_, h.erased, h.erased_known⟩
  · rintro op (hop | hop)
    · exact h.known op (.inl hop)
    · obtain ⟨node, hnode, hid⟩ := hoth.known op hop
      rw [← hid]
      exact h.known node.toRgaInsert (.inr ⟨node, hnode, rfl⟩)
  · intro node hnode
    exact Set.union_subset_union_right I hins (h.chosen node hnode)
  · rintro node hnode op (hop | hop) hid
    · exact h.least node hnode op (.inl hop) hid
    · obtain ⟨chosen, hchos, hid'⟩ := hoth.known op hop
      calc rank node.toRgaInsert
          ≤ rank chosen.toRgaInsert :=
            h.least node hnode chosen.toRgaInsert (.inr ⟨chosen, hchos, rfl⟩) (hid'.trans hid)
        _ ≤ rank op := hoth.least chosen hchos op hop hid'.symm

/-- **A replica's nodes are determined by the operations that it accepted.** -/
theorem RgaReplica.describes (h : RgaReplica cap state I E) : Describes cap state I E := by
  induction h with
  | empty =>
    refine ⟨⟨nodup_nil, zero_le⟩, ?_, ?_, ?_, ?_, ?_⟩ <;> simp
  | @insert s I E op _ hok ih =>
    have hnone : E ∪ {id | id = op.node.id ∧ op.node.tombstone = true} = E := by
      simp [RgaInsert.node]
    have hdone := ih.upsertInto op.node hok
    rw [hnone] at hdone
    exact hdone
  | erase id _ hok ih => exact ih.erase hok
  | gossip other _ hok ih => exact ih.merge hok
  | merge _ _ hok ihs iht => exact (ihs.merge hok).absorb iht

theorem Describes.subset (h : Describes cap state I E)
    (hoth : Describes cap other I E) : nodes state ⊆ nodes other := by
  intro node hnode
  obtain ⟨twin, htwin, hid⟩ := hoth.known _ (h.chosen node hnode)
  have hrank : rank node.toRgaInsert = rank twin.toRgaInsert := by
    apply le_antisymm
    · exact h.least node hnode _ (hoth.chosen twin htwin) hid
    · exact hoth.least twin htwin _ (h.chosen node hnode) hid.symm
  have hins : node.toRgaInsert = twin.toRgaInsert := rank_injective hid.symm hrank
  have htomb : node.tombstone = twin.tombstone := by
    rw [Bool.eq_iff_iff, h.erased node hnode, hoth.erased twin htwin, hid]
  have hsame : node = twin := by
    cases node
    simp_all
  rw [hsame]
  exact htwin

/-- **Replicas that accepted the same operations show the same list**: the value of each
node that is not erased and that the links connect to the root, once, each behind its
predecessor.  Every state is materialized. -/
theorem rga_replicas_converge {s t : List (RgaNode ι τ)} (root : ι)
    (hs : RgaReplica cap s I E) (ht : RgaReplica cap t I E) :
    (∃ order, materialize cap root s = some (visible order) ∧
      materialize cap root t = some (visible order) ∧ order.Nodup ∧
      (∀ node, node ∈ order ↔
        Below (fun node => node.id) (fun node => node.after) (nodes s) root node) ∧
      ∀ front node back, order = front ++ node :: back →
        node.after = root ∨ ∃ other ∈ front, other.id = node.after) ∧
    ∀ state : List (RgaNode ι τ), ∃ out, materialize cap root state = some out := by
  refine ⟨?_, materialize_ends cap root⟩
  have hds := hs.describes
  have hdt := ht.describes
  obtain ⟨order, hwalk, hshown⟩ := hds.toWellFormed.materialize root
  obtain ⟨order', hwalk', hshown'⟩ := hdt.toWellFormed.materialize root
  have hnodes : nodes t = nodes s := Set.Subset.antisymm (hdt.subset hds) (hds.subset hdt)
  rw [DocumentOrder, hnodes] at hwalk'
  obtain rfl := hwalk.unique (nodes_injOn hds.nodup) hwalk'
  refine ⟨order, hshown, hshown', hwalk.nodup, hwalk.mem_iff_below, ?_⟩
  intro front node back hsplit
  rcases hwalk.linked front node back hsplit with hlink | ⟨other, hother, hlink⟩
  · exact .inl hlink
  · exact .inr ⟨other, hother, hlink.symm⟩

/-- One replica inserted both nodes and erased the first one, the other one inserted the
second node and merged the rest. -/
theorem rga_replicas_converge_merged :
    materialize 4 0 (erase (insertAfter 4 (insertAfter 4 [] (⟨1, 0, 10⟩ : RgaInsert Nat Nat)).1
        ⟨2, 1, 20⟩).1 1).1 =
      materialize 4 0 (merge 4 (insertAfter 4 [] (⟨2, 1, 20⟩ : RgaInsert Nat Nat)).1
        (erase (insertAfter 4 [] (⟨1, 0, 10⟩ : RgaInsert Nat Nat)).1 1).1).1 := by
  have hs : RgaReplica 4 (erase (insertAfter 4 (insertAfter 4 []
      (⟨1, 0, 10⟩ : RgaInsert Nat Nat)).1 ⟨2, 1, 20⟩).1 1).1
      (∅ ∪ {⟨1, 0, 10⟩} ∪ {⟨2, 1, 20⟩}) (∅ ∪ {1}) :=
    ((RgaReplica.empty.insert ⟨1, 0, 10⟩ rfl).insert ⟨2, 1, 20⟩ rfl).erase 1 rfl
  have ht : RgaReplica 4 (merge 4 (insertAfter 4 [] (⟨2, 1, 20⟩ : RgaInsert Nat Nat)).1
      (erase (insertAfter 4 [] (⟨1, 0, 10⟩ : RgaInsert Nat Nat)).1 1).1).1
      (∅ ∪ {⟨2, 1, 20⟩} ∪ (∅ ∪ {⟨1, 0, 10⟩})) (∅ ∪ (∅ ∪ {1})) :=
    (RgaReplica.empty.insert ⟨2, 1, 20⟩ rfl).merge
      ((RgaReplica.empty.insert ⟨1, 0, 10⟩ rfl).erase 1 rfl) rfl
  rw [Set.empty_union, Set.empty_union, Set.empty_union, Set.union_comm, ← Set.empty_union {_}]
    at ht
  obtain ⟨⟨order, hshown, hshown', -⟩, -⟩ := rga_replicas_converge 0 hs ht
  rw [hshown, hshown']

/-- An erase that arrives before the insert is refused, and the insert stays. -/
theorem rga_early_erase_is_lost : (erase ([] : List (RgaNode Nat Nat)) 1).2 = false ∧
    materialize 4 0 (insertAfter 4 (erase [] 1).1 (⟨1, 0, 10⟩ : RgaInsert Nat Nat)).1 = some [10] ∧
    (erase (insertAfter 4 [] (⟨1, 0, 10⟩ : RgaInsert Nat Nat)).1 1).2 = true ∧
    materialize 4 0 (erase (insertAfter 4 [] (⟨1, 0, 10⟩ : RgaInsert Nat Nat)).1 1).1 =
      some [] := by
  decide

/-! ### Where an insert is shown -/

end RgaList

end Crucible
