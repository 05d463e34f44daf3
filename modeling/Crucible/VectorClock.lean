import Crucible.Causality
import Crucible.Loops
import Crucible.Types
import Mathlib.Data.List.GetD
import Mathlib.Data.Fintype.Pi

/-! # Vector clocks

A clock keeps one count for each node.  An event adds one to the count of its own node; a
received snapshot, or the sparse delta of one, is joined entry by entry before that.  So an
event lies in the past of an action exactly when its own number is not above the action's count
for its node (`Tracks`), and from this threshold the order of snapshots is the causal order.
-/
namespace Crucible
open List Function

/-! ### Snapshots -/

abbrev VectorClockSnapshot (n : Nat) : Type := Fin n → Nat

namespace VectorClockSnapshot

variable {n : Nat}

def zero : VectorClockSnapshot n := fun _ => 0

def leq (lhs rhs : VectorClockSnapshot n) : Bool := (finRange n).all fun i => lhs i ≤ rhs i

def happensBefore (lhs rhs : VectorClockSnapshot n) : Bool := leq lhs rhs && !(lhs == rhs)

def concurrentWith (lhs rhs : VectorClockSnapshot n) : Bool := !leq lhs rhs && !leq rhs lhs

/-- `merge_snapshot_`, with `atomic_max_` at each entry. -/
def merge (clock incoming : VectorClockSnapshot n) : VectorClockSnapshot n :=
  fun i => if clock i < incoming i then incoming i else clock i

/-- `bump_slot_` on the own entry.  The largest count stays. -/
def bump (clock : VectorClockSnapshot n) (self : Fin n) : VectorClockSnapshot n :=
  update clock self (if clock self = u64Max then clock self else clock self + 1)

theorem leq_iff {lhs rhs : VectorClockSnapshot n} : leq lhs rhs = true ↔ ∀ i, lhs i ≤ rhs i := by
  simp [leq, all_eq_true]

theorem merge_apply (clock incoming : VectorClockSnapshot n) (i : Fin n) :
    merge clock incoming i = max (clock i) (incoming i) := by
  rw [merge]
  rcases lt_or_ge (clock i) (incoming i) with h | h
  · rw [if_pos h, max_eq_right h.le]
  · rw [if_neg (not_lt.mpr h), max_eq_left h]

end VectorClockSnapshot

/-! ### Sparse deltas -/

/-- `VectorClockDelta`: pairs of a node and its count, in order of arrival. -/
structure VectorClockDelta (n : Nat) where
  entries : List (Fin n × Nat) := []
  count_le : entries.length ≤ n := by exact zero_le

namespace VectorClockDelta

variable {n : Nat}

/-- `push`.  A zero count is not stored, and a node that is stored keeps its larger
count. -/
def push (delta : VectorClockDelta n) (node : Fin n) (value : Nat) : VectorClockDelta n :=
  if value = 0 then delta
  else match delta.entries.findIdx? fun entry => entry.1 == node with
    | some i =>
      { entries := delta.entries.modify i fun entry => (entry.1, max entry.2 value)
        count_le := by rw [length_modify]; exact delta.count_le }
    | none =>
      if h : delta.entries.length = n then delta
      else
        { entries := delta.entries ++ [(node, value)]
          count_le := by
            rw [length_append]
            exact Nat.lt_of_le_of_ne delta.count_le h }

end VectorClockDelta

namespace VectorClockSnapshot

variable {n : Nat}

def sparseDelta (snapshot : VectorClockSnapshot n) : VectorClockDelta n :=
  (finRange n).foldl (fun delta i => delta.push i (snapshot i)) {}

def fromSparseDelta (delta : VectorClockDelta n) : VectorClockSnapshot n :=
  delta.entries.foldl (fun out entry => update out entry.1 entry.2) zero

def sparseEntries (snapshot : VectorClockSnapshot n) (nodes : List (Fin n)) : List (Fin n × Nat) :=
  nodes.filterMap fun i => if snapshot i = 0 then none else some (i, snapshot i)

variable {snapshot : VectorClockSnapshot n}

theorem mem_sparseEntries {nodes : List (Fin n)} {entry : Fin n × Nat} :
    entry ∈ sparseEntries snapshot nodes ↔
      entry.1 ∈ nodes ∧ snapshot entry.1 ≠ 0 ∧ entry.2 = snapshot entry.1 := by
  rw [sparseEntries, mem_filterMap]
  constructor
  · rintro ⟨i, hi, hent⟩
    by_cases hzero : snapshot i = 0
    · rw [if_pos hzero] at hent
      cases hent
    · rw [if_neg hzero] at hent
      cases hent
      exact ⟨hi, hzero, rfl⟩
  · rintro ⟨hmem, hzero, hval⟩
    refine ⟨entry.1, hmem, ?_⟩
    rw [if_neg hzero, ← hval]

variable {delta : VectorClockDelta n}

theorem push_fresh {node : Fin n} {value : Nat}
    (hfresh : ∀ entry ∈ delta.entries, entry.1 ≠ node) (hroom : delta.entries.length < n)
    (hval : value ≠ 0) : (delta.push node value).entries = delta.entries ++ [(node, value)] := by
  have hnone : (delta.entries.findIdx? fun entry => entry.1 == node) = none := by
    rw [findIdx?_eq_none_iff]
    intro entry hent
    exact beq_eq_false_iff_ne.mpr (hfresh entry hent)
  rw [VectorClockDelta.push, if_neg hval, hnone]
  simp only [dif_neg hroom.ne]

theorem sparseDelta_entries (snapshot : VectorClockSnapshot n) :
    (sparseDelta snapshot).entries = sparseEntries snapshot (finRange n) := by
  refine foldl_done_inv (fun done (delta : VectorClockDelta n) =>
    delta.entries = sparseEntries snapshot done) rfl ?_
  intro done node rest delta hsplit hdone
  have hnod := hsplit ▸ nodup_finRange n
  have hlen := hsplit ▸ length_finRange (n := n)
  rw [sparseEntries, filterMap_append, ← sparseEntries, ← hdone]
  by_cases hzero : snapshot node = 0
  · simp [VectorClockDelta.push, hzero]
  · have hfresh : ∀ entry ∈ delta.entries, entry.1 ≠ node := by
      intro entry hent
      rw [hdone, mem_sparseEntries] at hent
      exact (nodup_append.mp hnod).2.2 _ hent.1 node mem_cons_self
    have hle : delta.entries.length ≤ done.length := hdone ▸ length_filterMap_le _ _
    rw [length_append, length_cons] at hlen
    rw [push_fresh hfresh (by omega) hzero]
    simp [hzero]

theorem foldl_update {out : VectorClockSnapshot n} {entries : List (Fin n × Nat)}
    (hval : ∀ entry ∈ entries, entry.2 = snapshot entry.1) (i : Fin n) :
    entries.foldl (fun out entry => update out entry.1 entry.2) out i =
      if i ∈ entries.map Prod.fst then snapshot i else out i := by
  induction entries generalizing out with
  | nil => simp
  | cons entry entries ih =>
    rw [foldl_cons, map_cons, ih fun e he => hval e (mem_cons_of_mem _ he)]
    by_cases hlat : i ∈ entries.map Prod.fst
    · rw [if_pos hlat, if_pos (mem_cons_of_mem _ hlat)]
    · rw [if_neg hlat]
      by_cases hhere : i = entry.1
      · rw [if_pos (hhere ▸ mem_cons_self), hhere, update_self]
        exact hval entry mem_cons_self
      · rw [update_of_ne hhere, if_neg]
        intro hmem
        rcases mem_cons.mp hmem with h | h
        · exact hhere h
        · exact hlat h

/-- **The sparse delta of a snapshot loses nothing.** -/
theorem fromSparseDelta_sparseDelta (snapshot : VectorClockSnapshot n) :
    fromSparseDelta (sparseDelta snapshot) = snapshot := by
  funext i
  have hval : ∀ entry ∈ sparseEntries snapshot (finRange n), entry.2 = snapshot entry.1 :=
    fun entry hent => (mem_sparseEntries.mp hent).2.2
  rw [fromSparseDelta, sparseDelta_entries, foldl_update hval i]
  by_cases hzero : snapshot i = 0
  · have hnot : i ∉ (sparseEntries snapshot (finRange n)).map Prod.fst := by
      intro hmem
      obtain ⟨entry, hent, rfl⟩ := mem_map.mp hmem
      exact (mem_sparseEntries.mp hent).2.1 hzero
    rw [if_neg hnot, hzero]
    rfl
  · rw [if_pos]
    exact mem_map.mpr
      ⟨(i, snapshot i), mem_sparseEntries.mpr ⟨mem_finRange i, hzero, rfl⟩, rfl⟩

end VectorClockSnapshot

/-! ### Executions -/

/-- What a node does with its clock.  A message is named by the action whose snapshot it
carries; a message from nowhere carries a fresh clock. -/
inductive ClockAction (n : Nat) where
  | onLocalEvent (self : Fin n)
  | onSend (self : Fin n)
  | snapshot (self : Fin n)
  | onRecv (self : Fin n) (message : Nat) (sparse : Bool)
  | applyDelta (self : Fin n) (message : Nat)
deriving DecidableEq

namespace ClockAction

variable {n : Nat}

def self : ClockAction n → Fin n
  | onLocalEvent self | onSend self | snapshot self | onRecv self _ _ | applyDelta self _ => self

def isEvent : ClockAction n → Bool
  | onLocalEvent _ | onSend _ | onRecv _ _ _ => true
  | snapshot _ | applyDelta _ _ => false

def message : ClockAction n → Option Nat
  | onRecv _ message _ | applyDelta _ message => some message
  | onLocalEvent _ | onSend _ | snapshot _ => none

end ClockAction

/-- The clocks of all nodes, and the snapshots that the actions so far left. -/
structure VectorClocks (n : Nat) where
  clocks : Fin n → VectorClockSnapshot n := fun _ => VectorClockSnapshot.zero
  taken : List (VectorClockSnapshot n) := []

namespace VectorClocks

open VectorClockSnapshot

variable {n : Nat}

def clockAfter (s : VectorClocks n) : ClockAction n → VectorClockSnapshot n
  | .onLocalEvent self | .onSend self => bump (s.clocks self) self
  | .snapshot self => s.clocks self
  | .onRecv self message sparse =>
    let incoming := s.taken.getD message zero
    let incoming := if sparse then fromSparseDelta (sparseDelta incoming) else incoming
    bump (merge (s.clocks self) incoming) self
  | .applyDelta self message =>
    merge (s.clocks self) (fromSparseDelta (sparseDelta (s.taken.getD message zero)))

def step (s : VectorClocks n) (action : ClockAction n) : VectorClocks n where
  clocks := update s.clocks action.self (s.clockAfter action)
  taken := s.taken ++ [s.clockAfter action]

variable (actions : List (ClockAction n))

/-- The clocks before action `k`. -/
def stateAt (k : Nat) : VectorClocks n :=
  (actions.take k).foldl step {}

/-- The snapshot that action `k` leaves. -/
def snapshotAt (k : Nat) : VectorClockSnapshot n :=
  (stateAt actions (k + 1)).taken.getD k zero

/-- The message of the action at `b` carries the snapshot of the action at `a`. -/
def Carries (a b : Nat) : Prop :=
  ∃ action, actions[b]? = some action ∧ action.message = some a

/-- An action happened before another one. -/
def Before (a b : Nat) : Prop :=
  HappenedBefore ClockAction.self (Carries actions) actions a b

/-- The number of events of node `j` before action `k`. -/
def eventsBefore (j : Fin n) (k : Nat) : Nat :=
  (actions.take k).countP fun action => action.isEvent && action.self == j

/-! ### The clock of an action as a join -/

def takenIn (s : VectorClocks n) (action : ClockAction n) : VectorClockSnapshot n :=
  match action.message with
  | some message => s.taken.getD message zero
  | none => zero

def joined (s : VectorClocks n) (action : ClockAction n) : VectorClockSnapshot n :=
  merge (s.clocks action.self) (s.takenIn action)

theorem merge_zero (clock : VectorClockSnapshot n) : merge clock zero = clock := by
  funext i
  rw [merge_apply]
  exact max_eq_left zero_le

theorem clockAfter_eq (s : VectorClocks n) (action : ClockAction n) : s.clockAfter action =
      if action.isEvent then bump (s.joined action) action.self else s.joined action := by
  cases action with
  | onLocalEvent self =>
    exact congrArg (bump · self) (merge_zero _).symm
  | onSend self => exact congrArg (bump · self) (merge_zero _).symm
  | snapshot self => exact (merge_zero _).symm
  | onRecv self message sparse =>
    have hinc : (if sparse then fromSparseDelta (sparseDelta (s.taken.getD message zero))
        else s.taken.getD message zero) = s.taken.getD message zero := by
      rw [fromSparseDelta_sparseDelta]
      exact ite_self _
    exact congrArg (fun incoming => bump (merge (s.clocks self) incoming) self) hinc
  | applyDelta self message =>
    exact congrArg (merge (s.clocks self)) (fromSparseDelta_sparseDelta _)

/-! ### Positions of an execution -/

section Positions

variable {actions} {j : Fin n} {k : Nat} {action : ClockAction n}

theorem stateAt_succ (h : actions[k]? = some action) :
    stateAt actions (k + 1) = (stateAt actions k).step action := by
  rw [stateAt, take_add_one, h, foldl_append]
  rfl

theorem taken_length (hk : k ≤ actions.length) : (stateAt actions k).taken.length = k := by
  induction k with
  | zero => rfl
  | succ k ih =>
    rw [stateAt_succ (getElem?_eq_getElem hk), step, length_append, ih (Nat.le_of_succ_le hk)]
    rfl

variable {m x : Nat}

theorem taken_getD_of_lt (hm : m < k) (hk : k ≤ actions.length) :
    (stateAt actions k).taken.getD m zero = snapshotAt actions m := by
  induction k, Nat.succ_le_of_lt hm using Nat.le_induction with
  | base => rfl
  | succ k hmk ih =>
    have hlen := taken_length (Nat.le_of_succ_le hk)
    rw [← ih hmk (Nat.le_of_succ_le hk), stateAt_succ (getElem?_eq_getElem hk), step, getD_append]
    rw [hlen]
    exact hmk

theorem takenIn_eq (hk : k ≤ actions.length) {message : Nat} (h : action.message = some message) :
    (stateAt actions k).takenIn action =
      if message < k then snapshotAt actions message else zero := by
  rw [takenIn, h]
  by_cases hlt : message < k
  · rw [if_pos hlt]
    exact taken_getD_of_lt hlt hk
  · rw [if_neg hlt]
    apply getD_eq_default
    rw [taken_length hk]
    exact Nat.le_of_not_lt hlt

theorem snapshotAt_eq (h : actions[k]? = some action) :
    snapshotAt actions k = (stateAt actions (k + 1)).clocks action.self := by
  obtain ⟨hk, -⟩ := List.getElem?_eq_some_iff.mp h
  have hlen := taken_length hk.le
  rw [snapshotAt, stateAt_succ h, step]
  simp only [update_self]
  rw [getD_append_right _ _ _ _ (by rw [hlen]), hlen, Nat.sub_self]
  rfl

theorem eventsBefore_succ (h : actions[k]? = some action) (j : Fin n) :
    eventsBefore actions j (k + 1) =
      eventsBefore actions j k + if action.isEvent ∧ action.self = j then 1 else 0 := by
  rw [eventsBefore, eventsBefore, take_add_one, h]
  simp [countP_cons]

theorem eventsBefore_mono {k' : Nat} (h : k ≤ k') (j : Fin n) :
    eventsBefore actions j k ≤ eventsBefore actions j k' :=
  (take_sublist_take_left h).countP_le

theorem eventsBefore_event (h : actions[k]? = some action) (hevent : action.isEvent = true) :
    eventsBefore actions action.self (k + 1) = eventsBefore actions action.self k + 1 := by
  rw [eventsBefore_succ h, if_pos ⟨hevent, rfl⟩]

theorem exists_event {c : Nat} (hpos : 0 < c) (hle : c ≤ eventsBefore actions j k)
    (hk : k ≤ actions.length) :
    ∃ x e, actions[x]? = some e ∧ e.isEvent = true ∧ e.self = j ∧
      eventsBefore actions j (x + 1) = c := by
  induction k with
  | zero =>
    have hzero : eventsBefore actions j 0 = 0 := rfl
    omega
  | succ k ih =>
    by_cases hprev : c ≤ eventsBefore actions j k
    · exact ih hprev (Nat.le_of_succ_le hk)
    · have hget := getElem?_eq_getElem (Nat.lt_of_succ_le hk)
      have hsucc := eventsBefore_succ hget j
      by_cases hhere : actions[k].isEvent ∧ actions[k].self = j
      · rw [if_pos hhere] at hsucc
        exact ⟨k, actions[k], hget, hhere.1, hhere.2, by omega⟩
      · rw [if_neg hhere] at hsucc
        omega

/-! ### Thresholds -/

/-- The counts of a clock before action `k` are thresholds for a set of actions: an event is in the
set exactly when its number is not above the count for its node. -/
structure Tracks (actions : List (ClockAction n)) (k : Nat) (clock : VectorClockSnapshot n)
    (past : Nat → Prop) : Prop where
  bound : ∀ j, clock j ≤ eventsBefore actions j k
  past_iff : ∀ x e, actions[x]? = some e → e.isEvent = true →
    (eventsBefore actions e.self (x + 1) ≤ clock e.self ↔ past x)

variable {clock incoming : VectorClockSnapshot n} {past past' : Nat → Prop}

theorem tracks_zero (hnone : ∀ x, ¬ past x) : Tracks actions k zero past := by
  refine ⟨fun _ => zero_le, fun x e he hevent => iff_of_false ?_ (hnone x)⟩
  rw [eventsBefore_event he hevent]
  exact Nat.not_succ_le_zero _

theorem Tracks.congr (h : Tracks actions k clock past) (hk : k ≤ m) (heq : ∀ x, past x ↔ past' x) :
    Tracks actions m clock past' :=
  ⟨fun j => (h.bound j).trans (eventsBefore_mono hk j),
    fun x e he hevent => (h.past_iff x e he hevent).trans (heq x)⟩

theorem Tracks.merge (h : Tracks actions k clock past) (h' : Tracks actions k incoming past') :
    Tracks actions k (merge clock incoming) fun x => past x ∨ past' x := by
  refine ⟨fun j => ?_, fun x e he hevent => ?_⟩
  · rw [merge_apply]
    exact max_le (h.bound j) (h'.bound j)
  · rw [merge_apply, le_max_iff, h.past_iff x e he hevent, h'.past_iff x e he hevent]

def counted (action : ClockAction n) (clock : VectorClockSnapshot n) : VectorClockSnapshot n :=
  if action.isEvent then bump clock action.self else clock

section Act
variable (hk : actions[k]? = some action)
include hk

theorem counted_self (hown : clock action.self = eventsBefore actions action.self k)
    (hroom : eventsBefore actions action.self k < u64Max) :
    counted action clock action.self = eventsBefore actions action.self (k + 1) := by
  rw [counted, eventsBefore_succ hk]
  cases action.isEvent with
  | true => rw [if_pos rfl, if_pos ⟨rfl, rfl⟩, bump, update_self, hown, if_neg hroom.ne]
  | false => rw [if_neg Bool.false_ne_true, hown]; rfl

omit hk in
theorem counted_other (hj : action.isEvent = true → j ≠ action.self) :
    counted action clock j = clock j := by
  rw [counted]
  split
  · rw [bump, update_of_ne (hj ‹_›)]
  · rfl

theorem Tracks.counted (h : Tracks actions k clock past)
    (hown : clock action.self = eventsBefore actions action.self k)
    (hroom : eventsBefore actions action.self k < u64Max) :
    Tracks actions (k + 1) (counted action clock) fun x => x = k ∨ past x := by
  refine ⟨fun j => ?_, fun x e he hevent => ?_⟩
  · by_cases hj : j = action.self
    · rw [hj, counted_self hk hown hroom]
    · rw [counted_other fun _ => hj]
      exact (h.bound j).trans (eventsBefore_mono (Nat.le_succ k) j)
  · by_cases hself : action.isEvent = true ∧ e.self = action.self
    · -- the own count is exact, so it tells the earlier events of the node from the later ones
      have hpast := h.past_iff x e he hevent
      have hnum := eventsBefore_event he hevent
      rw [hself.2] at hpast hnum ⊢
      rw [counted_self hk hown hroom, ← hpast, hown]
      rcases lt_trichotomy x k with hlt | rfl | hgt
      · have hle : _ ≤ eventsBefore actions action.self k := eventsBefore_mono hlt _
        exact iff_of_true (hle.trans (eventsBefore_mono (Nat.le_succ k) _)) (.inr hle)
      · exact iff_of_true le_rfl (.inl rfl)
      · have hle : eventsBefore actions action.self (k + 1) ≤ _ := eventsBefore_mono hgt _
        have hle' : _ ≤ eventsBefore actions action.self (k + 1) := eventsBefore_mono k.le_succ _
        refine iff_of_false (by omega) ?_
        rintro (heq | hle'') <;> omega
    · have hne : x ≠ k := by
        rintro rfl
        cases hk.symm.trans he
        exact hself ⟨hevent, rfl⟩
      rw [counted_other fun ha hj => hself ⟨ha, hj⟩, h.past_iff x e he hevent, or_iff_right hne]

theorem before_iff : Before actions x k ↔
      (∃ d g, d < k ∧ actions[d]? = some g ∧ g.self = action.self ∧ (x = d ∨ Before actions x d)) ∨
      ∃ m, action.message = some m ∧ m < k ∧ (x = m ∨ Before actions x m) := by
  rw [Before, happenedBefore_iff]
  constructor
  · rintro ⟨d, ⟨hdk, g, f, hg, hf, hdir⟩, hpast⟩
    rw [hk] at hf
    cases hf
    rcases hdir with hself | ⟨action', hact', hmes⟩
    · exact .inl ⟨d, g, hdk, hg, hself, hpast⟩
    · rw [hk] at hact'
      cases hact'
      exact .inr ⟨d, hmes, hdk, hpast⟩
  · obtain ⟨hlt, -⟩ := List.getElem?_eq_some_iff.mp hk
    rintro (⟨d, g, hdk, hg, hself, hpast⟩ | ⟨m, hmes, hmk, hpast⟩)
    · exact ⟨d, ⟨hdk, g, action, hg, hk, .inl hself⟩, hpast⟩
    · exact ⟨m, ⟨hmk, _, action, getElem?_eq_getElem (hmk.trans hlt), hk,
        .inr ⟨action, hk, hmes⟩⟩, hpast⟩

theorem known_iff : (∃ d g, d < k + 1 ∧ actions[d]? = some g ∧ g.self = action.self ∧
    (x = d ∨ Before actions x d)) ↔ x = k ∨ Before actions x k := by
  constructor
  · rintro ⟨d, g, hd, hg, hself, hpast⟩
    rcases Nat.lt_succ_iff_lt_or_eq.mp hd with hdk | rfl
    · exact .inr ((before_iff hk).mpr (.inl ⟨d, g, hdk, hg, hself, hpast⟩))
    · exact hpast
  · exact fun hpast => ⟨k, action, lt_add_one k, hk, rfl, hpast⟩

end Act

/-- The clocks before action `k`: each counts the own events, and tracks what its node knows. -/
structure Known (actions : List (ClockAction n)) (k : Nat) : Prop where
  own : ∀ i, (stateAt actions k).clocks i i = eventsBefore actions i k
  tracks : ∀ i, Tracks actions k ((stateAt actions k).clocks i) fun x =>
    ∃ d g, d < k ∧ actions[d]? = some g ∧ g.self = i ∧ (x = d ∨ Before actions x d)

theorem Known.snapshotAt (h : Known actions (m + 1)) (hm : actions[m]? = some action) :
    Tracks actions (m + 1) (snapshotAt actions m) fun x => x = m ∨ Before actions x m := by
  rw [snapshotAt_eq hm]
  exact (h.tracks action.self).congr le_rfl fun x => known_iff hm

theorem takenIn_tracks (hk : actions[k]? = some action)
    (h : ∀ m, m < k → Known actions (m + 1)) : Tracks actions k
      ((stateAt actions k).takenIn action) fun x =>
        ∃ m, action.message = some m ∧ m < k ∧ (x = m ∨ Before actions x m) := by
  obtain ⟨hlt, -⟩ := List.getElem?_eq_some_iff.mp hk
  cases hmes : action.message with
  | none =>
    rw [takenIn, hmes]
    exact tracks_zero (by simp)
  | some m =>
    rw [takenIn_eq hlt.le hmes]
    split
    · have hm := getElem?_eq_getElem (‹m < k›.trans hlt)
      exact ((h m ‹_›).snapshotAt hm).congr ‹_› fun x => by simp [*]
    · exact tracks_zero (by simp [*])

/-- **The step lemma**: one action keeps the thresholds. -/
theorem Known.step (hk : actions[k]? = some action) (h : Known actions k)
    (hin : ∀ m, m < k → Known actions (m + 1))
    (hroom : eventsBefore actions action.self k < u64Max) : Known actions (k + 1) := by
  have hin := takenIn_tracks hk hin
  have hjoined : (stateAt actions k).joined action action.self =
      eventsBefore actions action.self k := by
    rw [joined, merge_apply, h.own]
    exact max_eq_left (hin.bound action.self)
  have hmine : (stateAt actions (k + 1)).clocks action.self =
      counted action ((stateAt actions k).joined action) := by
    rw [stateAt_succ hk]
    exact (update_self _ _ _).trans (clockAfter_eq _ _)
  have hoth : ∀ i, i ≠ action.self →
      (stateAt actions (k + 1)).clocks i = (stateAt actions k).clocks i := by
    intro i hi
    rw [stateAt_succ hk]
    exact update_of_ne hi _ _
  refine ⟨fun i => ?_, fun i => ?_⟩ <;> by_cases hi : i = action.self
  · rw [hi, hmine, counted_self hk hjoined hroom]
  · rw [hoth i hi, h.own, eventsBefore_succ hk, if_neg fun hself => hi hself.2.symm]
    rfl
  · rw [hi, hmine]
    refine (((h.tracks _).merge hin).counted hk hjoined hroom).congr le_rfl fun x => ?_
    rw [known_iff hk, before_iff hk]
  · -- the other nodes do not know of the action
    rw [hoth i hi]
    refine (h.tracks i).congr (Nat.le_succ k) fun x => ⟨?_, ?_⟩
    · rintro ⟨d, g, hd, hrest⟩
      exact ⟨d, g, Nat.lt_succ_of_lt hd, hrest⟩
    · rintro ⟨d, g, hd, hg, hself, hpast⟩
      rcases Nat.lt_succ_iff_lt_or_eq.mp hd with hdk | rfl
      · exact ⟨d, g, hdk, hg, hself, hpast⟩
      · cases hk.symm.trans hg
        exact absurd hself.symm hi

/-- No node has as many events as a count can hold. -/
def FewEvents (actions : List (ClockAction n)) : Prop :=
  ∀ j : Fin n, (actions.countP fun action => action.isEvent && action.self == j) < u64Max

theorem FewEvents.room (h : FewEvents actions) (j : Fin n) (k : Nat) :
    eventsBefore actions j k < u64Max :=
  ((take_sublist k actions).countP_le).trans_lt (h j)

/-- **The run lemma**: the thresholds hold throughout. -/
theorem known_stateAt (hfew : FewEvents actions) (hk : k ≤ actions.length) : Known actions k := by
  induction k using Nat.strong_induction_on with
  | _ k ih =>
    cases k with
    | zero => exact ⟨fun _ => rfl, fun i => tracks_zero (by simp)⟩
    | succ k =>
      exact (ih k (lt_add_one k) (Nat.le_of_succ_le hk)).step (getElem?_eq_getElem hk)
        (fun m hm => ih (m + 1) (Nat.succ_lt_succ hm) (hm.trans hk)) (hfew.room _ _)

/-! ### The order of snapshots is the causal order -/

theorem leq_snapshotAt_iff (hfew : FewEvents actions) {a b : Nat} {e f : ClockAction n}
    (ha : actions[a]? = some e) (hb : actions[b]? = some f) (hevent : e.isEvent = true) :
    leq (snapshotAt actions a) (snapshotAt actions b) = true ↔ a = b ∨ Before actions a b := by
  obtain ⟨hlen, -⟩ := List.getElem?_eq_some_iff.mp ha
  obtain ⟨hlen', -⟩ := List.getElem?_eq_some_iff.mp hb
  have ha' := (known_stateAt hfew hlen).snapshotAt ha
  have hb' := (known_stateAt hfew hlen').snapshotAt hb
  rw [leq_iff]
  constructor
  · intro hle
    rw [← hb'.past_iff a e ha hevent, ← (known_stateAt hfew hlen).own, ← snapshotAt_eq ha]
    exact hle e.self
  · rintro (rfl | hbef) j
    · exact le_rfl
    · -- the last event of `j` that `a` knows of is known to `b` as well
      rcases Nat.eq_zero_or_pos (snapshotAt actions a j) with hzero | hpos
      · rw [hzero]
        exact zero_le
      · obtain ⟨x, g, hg, hgev, rfl, hnum⟩ := exists_event hpos (ha'.bound j) hlen
        have hknown := (ha'.past_iff x g hg hgev).mp hnum.le
        have hpast : x = b ∨ Before actions x b := by
          rcases hknown with rfl | hx
          · exact .inr hbef
          · exact .inr (hx.trans hbef)
        rw [← hnum]
        exact (hb'.past_iff x g hg hgev).mpr hpast

end Positions

end VectorClocks

open VectorClocks VectorClockSnapshot in
/-- **Vector clocks characterise causality.**  In every execution with fewer events at each
node than a count can hold, an event happened before another one exactly when its snapshot
happens before the other's, two events are concurrent exactly when their snapshots are,
and a snapshot survives its sparse delta. -/
theorem vectorClock_causality {n : Nat} {actions : List (ClockAction n)} (hfew : FewEvents actions)
    {a b : Nat} {e f : ClockAction n} (ha : actions[a]? = some e) (hb : actions[b]? = some f)
    (he : e.isEvent = true) (hf : f.isEvent = true) :
    (Before actions a b ↔ happensBefore (snapshotAt actions a) (snapshotAt actions b) = true) ∧
    ((a ≠ b ∧ ¬ Before actions a b ∧ ¬ Before actions b a) ↔
      concurrentWith (snapshotAt actions a) (snapshotAt actions b) = true) ∧
    ∀ snapshot : VectorClockSnapshot n, fromSparseDelta (sparseDelta snapshot) = snapshot := by
  have hab := leq_snapshotAt_iff hfew ha hb he
  have hba := leq_snapshotAt_iff hfew hb ha hf
  refine ⟨?_, ?_, fromSparseDelta_sparseDelta⟩
  · rw [happensBefore, Bool.and_eq_true, hab, Bool.not_eq_true', beq_eq_false_iff_ne]
    constructor
    · intro hbefore
      refine ⟨.inr hbefore, ?_⟩
      intro heq
      -- equal snapshots would put the later event into the past of the earlier one
      have hle : leq (snapshotAt actions b) (snapshotAt actions a) = true := by
        rw [heq, leq_iff]
        exact fun _ => le_rfl
      rcases hba.mp hle with hsame | hback
      · exact absurd hbefore.lt (by rw [hsame]; exact lt_irrefl a)
      · exact lt_asymm hbefore.lt hback.lt
    · rintro ⟨rfl | hbefore, hne⟩
      · exact absurd rfl hne
      · exact hbefore
  · rw [concurrentWith, Bool.and_eq_true, Bool.not_eq_true', Bool.not_eq_true',
      ← Bool.not_eq_true, ← Bool.not_eq_true, hab, hba]
    constructor
    · rintro ⟨hne, h1, h2⟩
      exact ⟨fun h => h.elim hne h1, fun h => h.elim (Ne.symm hne) h2⟩
    · rintro ⟨h1, h2⟩
      exact ⟨fun h => h1 (.inl h), fun h => h1 (.inr h), fun h => h2 (.inr h)⟩

/-- Node 0 sends, node 1 receives the sparse delta, and node 0 goes on meanwhile. -/
def sentAndReceived : List (ClockAction 2) :=
  [.onSend 0, .onRecv 1 0 true, .onLocalEvent 0]

open VectorClocks VectorClockSnapshot in
/-- The receive comes after the send, and it is concurrent with what node 0 does
meanwhile. -/
theorem vectorClock_causality_sentAndReceived :
    Before sentAndReceived 0 1 ∧ ¬ Before sentAndReceived 1 2 ∧
    concurrentWith (snapshotAt sentAndReceived 1) (snapshotAt sentAndReceived 2) = true := by
  have hfew : FewEvents sentAndReceived := by
    rw [FewEvents]
    decide
  obtain ⟨hsend, -, -⟩ := vectorClock_causality hfew (a := 0) (b := 1) rfl rfl rfl rfl
  obtain ⟨-, hmeanwhile, -⟩ := vectorClock_causality hfew (a := 1) (b := 2) rfl rfl rfl rfl
  have hconcurrent :
      concurrentWith (snapshotAt sentAndReceived 1) (snapshotAt sentAndReceived 2) = true := by
    decide
  exact ⟨hsend.mpr (by decide), (hmeanwhile.mpr hconcurrent).2.1, hconcurrent⟩

end Crucible
