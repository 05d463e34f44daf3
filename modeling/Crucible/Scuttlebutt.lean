import Crucible.AntiEntropy
import Crucible.Loops
import Crucible.Types

/-! # Scuttlebutt synchronisation

`ScuttlebuttSync` keeps a table of versions, one row for each peer and one column for each
registered key; the first row is the node's own.  The nodes exchange the deltas that were
handed out, in any order and any number of times, and the application changes a node's CRDT
for a key by updates that only grow it.  Each step is an effect of the abstract
anti-entropy, except that a node may compact its own row: it then counts its publications
from one again, while the others still hold the versions from before.
-/
namespace Crucible
open List

/-- `ScuttlebuttError`, as far as the functions here return it. -/
inductive ScuttlebuttError
  | capacityExceeded
  | duplicatePeer
  | emptyKey
  | malformedDelta
  | mergeRejected
  | notAvailable
  | typeMismatch
  | unknownKey
  | unknownPeer
  | versionOverflow
  | zeroUuid
deriving DecidableEq

/-- The capacities of the tables, the zero uuid and the keys that name nothing. -/
structure ScuttlebuttShape (ρ κ : Type) where
  maxPeers : Nat
  maxKeys : Nat
  isZero : ρ → Bool
  isEmpty : κ → Bool

/-- A state-based CRDT: a merge that is not refused gives a state above both. -/
structure StateCrdt (σ : Type) [Preorder σ] where
  merge : σ → σ → Option σ
  above : ∀ a b c, merge a b = some c → a ≤ c ∧ b ≤ c

/-- A change that the application makes to a CRDT. -/
structure LocalUpdate (σ : Type) [Preorder σ] where
  run : σ → σ
  grows : ∀ a, a ≤ run a

structure VersionEntry (ρ κ : Type) where
  origin : ρ
  key : κ
  version : Nat

/-- `ScuttlebuttSync`: the local peer owns the first slot, the other ones follow; a key
slot holds the key and the type of its CRDT. -/
structure ScuttlebuttSync (ρ κ τ : Type) where
  localPeer : ρ
  others : List ρ := []
  keys : List (κ × τ) := []
  versions : Nat → Nat → Nat := fun _ _ => 0

namespace ScuttlebuttSync

section Model
variable {ρ κ τ σ : Type} [DecidableEq ρ] [DecidableEq κ] [DecidableEq τ] [Preorder σ]

variable (sync : ScuttlebuttSync ρ κ τ)

/-- The live slots of `peers_`. -/
def peers : List ρ := sync.localPeer :: sync.others

def findPeer (peer : ρ) : Option Nat :=
  sync.peers.findIdx? fun other => decide (other = peer)

def findKey (key : κ) : Option Nat :=
  sync.keys.findIdx? fun slot => decide (slot.1 = key)

def requireKey (key : κ) (type : τ) : Except ScuttlebuttError Nat :=
  match sync.findKey key with
  | none => .error .unknownKey
  | some j =>
    if sync.keys[j]?.map Prod.snd = some type then .ok j else .error .typeMismatch

def setVersion (i j v : Nat) : ScuttlebuttSync ρ κ τ :=
  { sync with versions := fun a b => if a = i ∧ b = j then v else sync.versions a b }

def addPeer (shape : ScuttlebuttShape ρ κ) (sync : ScuttlebuttSync ρ κ τ) (peer : ρ) :
    Except ScuttlebuttError (ScuttlebuttSync ρ κ τ) :=
  if shape.isZero peer then .error .zeroUuid
  else if (sync.findPeer peer).isSome then .error .duplicatePeer
  else if shape.maxPeers ≤ sync.peers.length then .error .capacityExceeded
  else .ok { sync with others := sync.others ++ [peer] }

def registerState (shape : ScuttlebuttShape ρ κ) (sync : ScuttlebuttSync ρ κ τ) (key : κ)
    (type : τ) : Except ScuttlebuttError (ScuttlebuttSync ρ κ τ) :=
  if shape.isEmpty key then .error .emptyKey
  else match sync.findKey key with
    | some j =>
      if sync.keys[j]?.map Prod.snd = some type then .ok sync else .error .typeMismatch
    | none =>
      if shape.maxKeys ≤ sync.keys.length then .error .capacityExceeded
      else .ok { sync with keys := sync.keys ++ [(key, type)] }

def publishLocalChange (key : κ) (type : τ) (state : σ) :
    Except ScuttlebuttError (ScuttlebuttSync ρ κ τ × Delta ρ κ σ) :=
  match sync.requireKey key type with
  | .error e => .error e
  | .ok j =>
    if sync.versions 0 j = u64Max then .error .versionOverflow
    else .ok (sync.setVersion 0 j (sync.versions 0 j + 1),
      ⟨sync.localPeer, key, sync.versions 0 j + 1, state⟩)

def deltaForRequest (request : VersionEntry ρ κ) (type : τ)
    (state : σ) : Except ScuttlebuttError (Delta ρ κ σ) :=
  match sync.findPeer request.origin with
  | none => .error .unknownPeer
  | some i =>
    match sync.requireKey request.key type with
    | .error e => .error e
    | .ok j =>
      if sync.versions i j < request.version ∨ sync.versions i j = 0 then .error .notAvailable
      else .ok ⟨request.origin, request.key, sync.versions i j, state⟩

/-- `apply_delta`: the table, the CRDT and whether the delta was merged. -/
def applyDelta (shape : ScuttlebuttShape ρ κ) (crdt : StateCrdt σ)
    (sync : ScuttlebuttSync ρ κ τ) (delta : Delta ρ κ σ) (type : τ) (state : σ) :
    Except ScuttlebuttError (ScuttlebuttSync ρ κ τ × σ × Bool) :=
  if shape.isZero delta.origin ∨ shape.isEmpty delta.key ∨ delta.version = 0 then
    .error .malformedDelta
  else match sync.findPeer delta.origin with
    | none => .error .unknownPeer
    | some i =>
      match sync.requireKey delta.key type with
      | .error e => .error e
      | .ok j =>
        if delta.version ≤ sync.versions i j then .ok (sync, state, false)
        else match crdt.merge state delta.state with
          | none => .error .mergeRejected
          | some merged => .ok (sync.setVersion i j delta.version, merged, true)

/-- One key of the loop of `compact_peer_versions`. -/
def compactStep (i floor : Nat) (acc : ScuttlebuttSync ρ κ τ × Nat) (j : Nat) :
    ScuttlebuttSync ρ κ τ × Nat :=
  if acc.1.versions i j ≠ 0 ∧ acc.1.versions i j < floor then
    (acc.1.setVersion i j 0, acc.2 + 1)
  else acc

/-- `compact_peer_versions`: the table and the number of versions dropped. -/
def compactPeerVersions (peer : ρ) (floor : Nat) :
    Except ScuttlebuttError (ScuttlebuttSync ρ κ τ × Nat) :=
  match sync.findPeer peer with
  | none => .error .unknownPeer
  | some i => .ok ((range sync.keys.length).foldl (compactStep i floor) (sync, 0))

def version (origin : ρ) (key : κ) : Nat :=
  match sync.findPeer origin, sync.findKey key with
  | some i, some j => sync.versions i j
  | _, _ => 0

/-- The entries beyond the live slots are zero. -/
def Tidy : Prop :=
  ∀ i j, sync.peers.length ≤ i ∨ sync.keys.length ≤ j → sync.versions i j = 0

/-- A node's table holds the versions that a map gives. -/
structure Table (node : ρ) (sync : ScuttlebuttSync ρ κ τ) (held : ρ → κ → Nat) : Prop where
  tidy : sync.Tidy
  owner : sync.localPeer = node
  version_eq : ∀ origin key, sync.version origin key = held origin key

end Model

/-! ### The table as a map -/

variable {ρ κ τ σ : Type} {sync sync' : ScuttlebuttSync ρ κ τ} {peer origin node : ρ} {key : κ}
  {type : τ} {i j v : Nat} {held : ρ → κ → Nat} {shape : ScuttlebuttShape ρ κ} {delta : Delta ρ κ σ}

/-- The loop over the keys leaves the slots and drops the versions of those it passed. -/
structure Compacted (sync : ScuttlebuttSync ρ κ τ) (i floor n : Nat)
    (acc : ScuttlebuttSync ρ κ τ × Nat) : Prop where
  peers_eq : acc.1.localPeer = sync.localPeer ∧ acc.1.others = sync.others
  keys_eq : acc.1.keys = sync.keys
  versions_eq : ∀ a b, acc.1.versions a b =
    if a = i ∧ b < n ∧ sync.versions a b < floor then 0 else sync.versions a b

theorem compactStep_compacted {floor n : Nat} {acc : ScuttlebuttSync ρ κ τ × Nat}
    (h : Compacted sync i floor n acc) :
    Compacted sync i floor (n + 1) (compactStep i floor acc n) := by
  have hhere : acc.1.versions i n = sync.versions i n := by
    rw [h.versions_eq]
    exact if_neg fun hlt => lt_irrefl n hlt.2.1
  -- the other entries were passed before or come later
  have hoth : ∀ a b, ¬ (a = i ∧ b = n) → acc.1.versions a b =
      if a = i ∧ b < n + 1 ∧ sync.versions a b < floor then 0 else sync.versions a b := by
    intro a b hne
    rw [h.versions_eq]
    exact if_congr (by omega) rfl rfl
  rw [compactStep, hhere]
  by_cases hdrop : sync.versions i n ≠ 0 ∧ sync.versions i n < floor
  · rw [if_pos hdrop]
    refine ⟨h.peers_eq, h.keys_eq, fun a b => ?_⟩
    by_cases hsame : a = i ∧ b = n
    · obtain ⟨rfl, rfl⟩ := hsame
      rw [if_pos ⟨rfl, lt_add_one b, hdrop.2⟩]
      exact if_pos ⟨rfl, rfl⟩
    · exact (if_neg hsame).trans (hoth a b hsame)
  · rw [if_neg hdrop]
    refine ⟨h.peers_eq, h.keys_eq, fun a b => ?_⟩
    by_cases hsame : a = i ∧ b = n
    · obtain ⟨rfl, rfl⟩ := hsame
      split <;> omega
    · exact hoth a b hsame

variable [DecidableEq ρ]

theorem findPeer_some (h : sync.findPeer peer = some i) : sync.peers[i]? = some peer := by
  obtain ⟨hlt, hfound, -⟩ := findIdx?_eq_some_iff_getElem.mp h
  rw [getElem?_eq_getElem hlt, of_decide_eq_true hfound]

theorem findPeer_local (sync : ScuttlebuttSync ρ κ τ) : sync.findPeer sync.localPeer = some 0 := by
  simp [findPeer, peers, findIdx?_cons]

variable [DecidableEq κ]

omit [DecidableEq ρ] in
theorem findKey_some (h : sync.findKey key = some j) :
    j < sync.keys.length ∧ sync.keys[j]?.map Prod.fst = some key := by
  obtain ⟨hlt, hfound, -⟩ := findIdx?_eq_some_iff_getElem.mp h
  rw [getElem?_eq_getElem hlt, Option.map_some, of_decide_eq_true hfound]
  exact ⟨hlt, rfl⟩

theorem version_of_slots (hpeer : sync.findPeer origin = some i)
    (hkey : sync.findKey key = some j) :
    sync.version origin key = sync.versions i j := by
  rw [version, hpeer, hkey]

theorem version_new (node origin : ρ) (key : κ) :
    ({ localPeer := node } : ScuttlebuttSync ρ κ τ).version origin key = 0 := by
  rw [version]
  cases findPeer ({ localPeer := node } : ScuttlebuttSync ρ κ τ) origin <;> rfl

theorem Table.setVersion (h : Table node sync held) (hpeer : sync.findPeer origin = some i)
    (hkey : sync.findKey key = some j) (v : Nat) :
    Table node (sync.setVersion i j v)
      (fun p k => if p = origin ∧ k = key then v else held p k) := by
  have hlive : i < sync.peers.length ∧ j < sync.keys.length :=
    ⟨(List.getElem?_eq_some_iff.mp (findPeer_some hpeer)).1, (findKey_some hkey).1⟩
  refine ⟨?_, h.owner, ?_⟩
  · intro a b hbey
    have hne : ¬ (a = i ∧ b = j) := by
      rintro ⟨rfl, rfl⟩
      rcases hbey with hbey | hbey
      · exact absurd hlive.1 (not_lt.mpr hbey)
      · exact absurd hlive.2 (not_lt.mpr hbey)
    exact (if_neg hne).trans (h.tidy a b hbey)
  · intro p k
    by_cases hsame : p = origin ∧ k = key
    · obtain ⟨rfl, rfl⟩ := hsame
      rw [if_pos ⟨rfl, rfl⟩]
      have hslots : (sync.setVersion i j v).version p k = (sync.setVersion i j v).versions i j :=
        version_of_slots hpeer hkey
      rw [hslots]
      exact if_pos ⟨rfl, rfl⟩
    · rw [if_neg hsame, ← h.version_eq p k]
      change (match sync.findPeer p, sync.findKey k with
        | some a, some b => if a = i ∧ b = j then v else sync.versions a b
        | _, _ => 0) = sync.version p k
      rw [version]
      cases ha : sync.findPeer p with
      | none => rfl
      | some a =>
        cases hb : sync.findKey k with
        | none => rfl
        | some b =>
          apply if_neg
          rintro ⟨rfl, rfl⟩
          apply hsame
          constructor
          · exact Option.some.inj ((findPeer_some ha).symm.trans (findPeer_some hpeer))
          · exact Option.some.inj ((findKey_some hb).2.symm.trans (findKey_some hkey).2)

theorem findIdx?_concat {α : Type} (f : α → Bool) (xs : List α) (x : α) :
    (xs ++ [x]).findIdx? f = xs.findIdx? f ∨
      xs.findIdx? f = none ∧ ∃ a, xs.length ≤ a ∧ (xs ++ [x]).findIdx? f = some a := by
  rw [findIdx?_append]
  cases hxs : xs.findIdx? f with
  | some a => exact .inl rfl
  | none =>
    cases hx : [x].findIdx? f with
    | none => exact .inl rfl
    | some b => exact .inr ⟨rfl, b + xs.length, le_add_self, rfl⟩

theorem version_extend (htidy : sync.Tidy) (hver : sync'.versions = sync.versions)
    (hpeer : sync'.findPeer origin = sync.findPeer origin ∨ sync.findPeer origin = none ∧
      ∃ a, sync.peers.length ≤ a ∧ sync'.findPeer origin = some a)
    (hkey : sync'.findKey key = sync.findKey key ∨ sync.findKey key = none ∧
      ∃ b, sync.keys.length ≤ b ∧ sync'.findKey key = some b) :
    sync'.version origin key = sync.version origin key := by
  rw [version, version, hver]
  rcases hpeer with hpeer | ⟨hnone, a, ha, hpeer⟩
  · rw [hpeer]
    rcases hkey with hkey | ⟨hnone, b, hb, hkey⟩
    · rw [hkey]
    · rw [hkey, hnone]
      cases sync.findPeer origin with
      | none => rfl
      | some a => exact htidy a b (.inr hb)
  · rw [hpeer, hnone]
    cases sync'.findKey key with
    | none => rfl
    | some b => exact htidy a b (.inl ha)

theorem Table.addPeer (h : Table node sync held)
    (hok : sync.addPeer shape peer = .ok sync') : Table node sync' held := by
  rw [ScuttlebuttSync.addPeer, check_ok, check_ok, check_ok] at hok
  obtain rfl := Except.ok.inj hok.2.2.2
  refine ⟨?_, h.owner, ?_⟩
  · intro a b hbey
    apply h.tidy
    refine hbey.imp_left fun hle => ?_
    rw [peers, ← cons_append, length_append] at hle
    exact le_self_add.trans hle
  · intro p k
    rw [← h.version_eq p k]
    apply version_extend h.tidy
    · rfl
    · exact findIdx?_concat (fun other => decide (other = p)) sync.peers peer
    · exact .inl rfl

/-- A compaction drops the versions of one peer that are below the floor. -/
theorem Table.compactPeerVersions {floor dropped : Nat} (h : Table node sync held)
    (hok : sync.compactPeerVersions peer floor = .ok (sync', dropped)) :
    Table node sync' (fun p k => if p = peer ∧ held p k < floor then 0 else held p k) := by
  rw [ScuttlebuttSync.compactPeerVersions] at hok
  split at hok
  · cases hok
  rename_i i hpeer
  have hloop : Compacted sync i floor sync.keys.length (sync', dropped) := by
    rw [← Except.ok.inj hok]
    apply foldl_range_inv (Compacted sync i floor)
    · refine ⟨⟨rfl, rfl⟩, rfl, ?_⟩
      exact fun a b => (if_neg fun hlt => Nat.not_lt_zero b hlt.2.1).symm
    · exact fun n acc _ hacc => compactStep_compacted hacc
  obtain ⟨⟨hown, hoth⟩, hkeys, hver⟩ := hloop
  have hpeers : sync'.peers = sync.peers := by rw [peers, peers, hown, hoth]
  refine ⟨fun a b hbey => ?_, hown.trans h.owner, fun p k => ?_⟩
  · rw [hpeers, hkeys] at hbey
    rw [hver, h.tidy a b hbey]
    exact ite_self 0
  · rw [← h.version_eq p k, version, version, findPeer, findKey, hpeers, hkeys]
    change (match sync.findPeer p, sync.findKey k with
      | some a, some b => sync'.versions a b
      | _, _ => 0) = _
    cases ha : sync.findPeer p with
    | none => exact (ite_self 0).symm
    | some a =>
      cases hb : sync.findKey k with
      | none => exact (ite_self 0).symm
      | some b =>
        refine (hver a b).trans ?_
        apply if_congr _ rfl rfl
        have hpa : a = i ↔ p = peer := by
          constructor
          · rintro rfl
            exact Option.some.inj ((findPeer_some ha).symm.trans (findPeer_some hpeer))
          · rintro rfl
            exact Option.some.inj (ha.symm.trans hpeer)
        rw [hpa]
        exact ⟨fun hlt => ⟨hlt.1, hlt.2.2⟩, fun hlt => ⟨hlt.1, (findKey_some hb).1, hlt.2⟩⟩

variable [DecidableEq τ]

omit [DecidableEq ρ] in
theorem requireKey_ok (h : sync.requireKey key type = .ok j) : sync.findKey key = some j := by
  rw [requireKey] at h
  split at h
  · cases h
  · split at h
    · rw [‹sync.findKey key = _›, Except.ok.inj h]
    · cases h

theorem Table.registerState (h : Table node sync held)
    (hok : sync.registerState shape key type = .ok sync') : Table node sync' held := by
  rw [ScuttlebuttSync.registerState, check_ok] at hok
  obtain ⟨-, hok⟩ := hok
  cases hfind : sync.findKey key with
  | some j =>
    simp only [hfind] at hok
    split at hok
    · rw [← Except.ok.inj hok]
      exact h
    · cases hok
  | none =>
    simp only [hfind, check_ok] at hok
    obtain rfl := Except.ok.inj hok.2
    refine ⟨?_, h.owner, ?_⟩
    · intro a b hbey
      apply h.tidy
      refine hbey.imp_right fun hle => ?_
      rw [length_append] at hle
      exact le_self_add.trans hle
    · intro p k
      rw [← h.version_eq p k]
      apply version_extend h.tidy
      · rfl
      · exact .inl rfl
      · exact findIdx?_concat (fun slot => decide (slot.1 = k)) sync.keys (key, type)

/-- A publication counts the own version up and carries the state under it. -/
theorem Table.publishLocalChange {state : σ} (h : Table node sync held)
    (hok : sync.publishLocalChange key type state = .ok (sync', delta)) :
    Table node sync' (fun p k => if p = node ∧ k = key then held node key + 1 else held p k) ∧
      delta = ⟨node, key, held node key + 1, state⟩ := by
  rw [ScuttlebuttSync.publishLocalChange] at hok
  split at hok
  · cases hok
  rename_i j hreq
  obtain ⟨rfl, rfl⟩ := Prod.mk.inj (Except.ok.inj (check_ok.mp hok).2)
  have hkey := requireKey_ok hreq
  have hpeer : sync.findPeer node = some 0 := h.owner ▸ findPeer_local sync
  have hheld : held node key = sync.versions 0 j := by
    rw [← h.version_eq, version_of_slots hpeer hkey]
  rw [hheld, h.owner]
  exact ⟨h.setVersion hpeer hkey _, rfl⟩

/-- An answer carries the state under the version that the node holds. -/
theorem Table.deltaForRequest {request : VersionEntry ρ κ} {state : σ}
    (h : Table node sync held) (hok : sync.deltaForRequest request type state = .ok delta) :
    delta = ⟨request.origin, request.key, held request.origin request.key, state⟩ := by
  rw [ScuttlebuttSync.deltaForRequest] at hok
  split at hok
  · cases hok
  rename_i i hpeer
  split at hok
  · cases hok
  rename_i j hreq
  rw [← Except.ok.inj (check_ok.mp hok).2, ← h.version_eq,
    version_of_slots hpeer (requireKey_ok hreq)]

/-- A delta is taken in with its version if this is larger than the one held. -/
theorem Table.applyDelta [Preorder σ] {crdt : StateCrdt σ} {state merged : σ} {applied : Bool}
    (h : Table node sync held)
    (hok : sync.applyDelta shape crdt delta type state = .ok (sync', merged, applied)) :
    delta.version ≤ held delta.origin delta.key ∧ sync' = sync ∧ merged = state ∨
      held delta.origin delta.key < delta.version ∧ crdt.merge state delta.state = some merged ∧
        Table node sync' (fun p k =>
          if p = delta.origin ∧ k = delta.key then delta.version else held p k) := by
  rw [ScuttlebuttSync.applyDelta, check_ok] at hok
  obtain ⟨-, hok⟩ := hok
  split at hok
  · cases hok
  rename_i i hpeer
  split at hok
  · cases hok
  rename_i j hreq
  have hkey := requireKey_ok hreq
  rw [← h.version_eq, version_of_slots hpeer hkey]
  split at hok
  · cases hok
    exact .inl ⟨‹_›, rfl, rfl⟩
  rename_i hold
  split at hok
  · cases hok
  rename_i hmer
  cases hok
  exact .inr ⟨not_le.mp hold, hmer, h.setVersion hpeer hkey _⟩

end ScuttlebuttSync

/-- What a node does: the application adds a peer, registers a key, changes a CRDT or
publishes it; the node answers a request, takes in the `i`-th of the deltas handed out so
far, or compacts a peer's versions. -/
inductive ScuttlebuttAction (ρ κ τ σ : Type) [Preorder σ]
  | addPeer (peer : ρ)
  | register (key : κ) (type : τ)
  | update (key : κ) (change : LocalUpdate σ)
  | publish (key : κ) (type : τ)
  | answer (request : VersionEntry ρ κ) (type : τ)
  | apply (i : Nat) (type : τ)
  | compact (peer : ρ) (floor : Nat)

/-- The nodes by their uuid, the CRDT of each node for each key, and the deltas that were
handed out and published so far. -/
structure ScuttlebuttSystem (ρ κ τ σ : Type) where
  sync : ρ → ScuttlebuttSync ρ κ τ
  state : ρ → κ → σ
  sent : List (Delta ρ κ σ)
  published : List (Delta ρ κ σ)

namespace ScuttlebuttSystem

section Model
variable {ρ κ τ σ : Type} [DecidableEq ρ] [DecidableEq κ] [DecidableEq τ] [Preorder σ]

/-- Every node knows itself only, and nothing was handed out. -/
def init (start : ρ → κ → σ) : ScuttlebuttSystem ρ κ τ σ where
  sync := fun node => { localPeer := node }
  state := start
  sent := []
  published := []

variable (s : ScuttlebuttSystem ρ κ τ σ)

def setSync (node : ρ) (sync : ScuttlebuttSync ρ κ τ) :
    ScuttlebuttSystem ρ κ τ σ :=
  { s with sync := fun q => if q = node then sync else s.sync q }

def setState (node : ρ) (key : κ) (x : σ) :
    ScuttlebuttSystem ρ κ τ σ :=
  { s with state := fun q k => if q = node ∧ k = key then x else s.state q k }

/-- One action of a node.  A call that returns an error changes nothing. -/
def step (shape : ScuttlebuttShape ρ κ) (crdt : StateCrdt σ) (s : ScuttlebuttSystem ρ κ τ σ)
    (node : ρ) : ScuttlebuttAction ρ κ τ σ → ScuttlebuttSystem ρ κ τ σ
  | .addPeer peer =>
    match (s.sync node).addPeer shape peer with
    | .ok sync => s.setSync node sync
    | .error _ => s
  | .register key type =>
    match (s.sync node).registerState shape key type with
    | .ok sync => s.setSync node sync
    | .error _ => s
  | .update key change => s.setState node key (change.run (s.state node key))
  | .publish key type =>
    match (s.sync node).publishLocalChange key type (s.state node key) with
    | .ok (sync, delta) =>
      { s.setSync node sync with sent := s.sent ++ [delta], published := s.published ++ [delta] }
    | .error _ => s
  | .answer request type =>
    match (s.sync node).deltaForRequest request type (s.state node request.key) with
    | .ok delta => { s with sent := s.sent ++ [delta] }
    | .error _ => s
  | .apply i type =>
    match s.sent[i]? with
    | none => s
    | some delta =>
      match (s.sync node).applyDelta shape crdt delta type (s.state node delta.key) with
      | .ok (sync, merged, _) => (s.setState node delta.key merged).setSync node sync
      | .error _ => s
  | .compact peer floor =>
    match (s.sync node).compactPeerVersions peer floor with
    | .ok (sync, _) => s.setSync node sync
    | .error _ => s

def run (shape : ScuttlebuttShape ρ κ) (crdt : StateCrdt σ) (s : ScuttlebuttSystem ρ κ τ σ)
    (actions : List (ρ × ScuttlebuttAction ρ κ τ σ)) : ScuttlebuttSystem ρ κ τ σ :=
  actions.foldl (fun s action => s.step shape crdt action.1 action.2) s

/-- A node that compacts its own versions drops none of them. -/
def Keeps (node : ρ) : ScuttlebuttAction ρ κ τ σ → Prop
  | .compact peer floor => peer = node → ∀ key,
      (s.sync node).version node key = 0 ∨ floor ≤ (s.sync node).version node key
  | _ => True

/-- Every action of a run keeps the own versions. -/
def KeepsAll (shape : ScuttlebuttShape ρ κ) (crdt : StateCrdt σ) :
    ScuttlebuttSystem ρ κ τ σ → List (ρ × ScuttlebuttAction ρ κ τ σ) → Prop
  | _, [] => True
  | s, action :: rest =>
    s.Keeps action.1 action.2 ∧ KeepsAll shape crdt (s.step shape crdt action.1 action.2) rest

/-- The versions and states of all nodes. -/
def replicas : Replicas ρ κ σ where
  version := fun q => (s.sync q).version
  state := s.state
  sent := s.sent
  published := s.published

/-- Every node's table is its own and tidy. -/
def Tables : Prop :=
  ∀ q, ScuttlebuttSync.Table q (s.sync q) (s.sync q).version

end Model

/-! ### Every step is an effect -/

variable {ρ κ τ σ : Type} {s : ScuttlebuttSystem ρ κ τ σ} {node origin : ρ} {key : κ} {v : Nat}
  {sync : ScuttlebuttSync ρ κ τ} {held : ρ → κ → Nat} [DecidableEq ρ]

theorem setSync_self (s : ScuttlebuttSystem ρ κ τ σ) (node : ρ) :
    s.setSync node (s.sync node) = s := by
  have hsync : (fun q => if q = node then s.sync node else s.sync q) = s.sync := by
    funext q
    by_cases hq : q = node
    · rw [if_pos hq, hq]
    · rw [if_neg hq]
  rw [setSync, hsync]

variable [DecidableEq κ]

theorem setState_self (s : ScuttlebuttSystem ρ κ τ σ) (node : ρ) (key : κ) :
    s.setState node key (s.state node key) = s := by
  have hstate : (fun q k => if q = node ∧ k = key then s.state node key else s.state q k) =
      s.state := by
    funext q k
    by_cases hqk : q = node ∧ k = key
    · rw [if_pos hqk, hqk.1, hqk.2]
    · rw [if_neg hqk]
  rw [setState, hstate]

theorem tables_setSync (h : s.Tables) (hsync : ScuttlebuttSync.Table node sync held) :
    (s.setSync node sync).Tables := by
  intro q
  change ScuttlebuttSync.Table q (if q = node then sync else s.sync q)
    (if q = node then sync else s.sync q).version
  by_cases hq : q = node
  · subst hq
    rw [if_pos rfl]
    exact ⟨hsync.tidy, hsync.owner, fun _ _ => rfl⟩
  · rw [if_neg hq]
    exact h q

theorem version_setSync (hsync : ScuttlebuttSync.Table node sync held) (q p : ρ) (k : κ) :
    (s.setSync node sync).replicas.version q p k =
      if q = node then held p k else s.replicas.version q p k := by
  change (if q = node then sync else s.sync q).version p k = _
  by_cases hq : q = node
  · rw [if_pos hq, if_pos hq]
    exact hsync.version_eq p k
  · rw [if_neg hq, if_neg hq]
    rfl

theorem replicas_setSync_entry (hsync : ScuttlebuttSync.Table node sync (fun p k =>
      if p = origin ∧ k = key then v else (s.sync node).version p k)) :
    (s.setSync node sync).replicas = s.replicas.setVersion node origin key v := by
  refine Replicas.ext (funext fun q => funext fun p => funext fun k => ?_) rfl rfl rfl
  rw [version_setSync hsync]
  change _ = if q = node ∧ p = origin ∧ k = key then v else s.replicas.version q p k
  by_cases hq : q = node
  · subst hq
    rw [if_pos rfl]
    exact if_congr (by simp) rfl rfl
  · rw [if_neg hq, if_neg fun hset => hq hset.1]

variable [Preorder σ]

theorem setSync_same_effect (h : s.Tables)
    (hsync : ScuttlebuttSync.Table node sync (s.sync node).version) :
    Replicas.Effect s.replicas (s.setSync node sync).replicas ∧ (s.setSync node sync).Tables := by
  have hsame : (s.setSync node sync).replicas = s.replicas := by
    refine Replicas.ext (funext fun q => funext fun p => funext fun k => ?_) rfl rfl rfl
    rw [version_setSync hsync]
    by_cases hq : q = node
    · rw [if_pos hq, hq]
      rfl
    · rw [if_neg hq]
  rw [hsame]
  exact ⟨.silent, tables_setSync h hsync⟩

theorem init_sound (start : ρ → κ → σ) : (init start : ScuttlebuttSystem ρ κ τ σ).Tables ∧
      Replicas.Sound (init start : ScuttlebuttSystem ρ κ τ σ).replicas := by
  have hzero : ∀ (q p : ρ) (k : κ),
      ((init start : ScuttlebuttSystem ρ κ τ σ).sync q).version p k = 0 :=
    ScuttlebuttSync.version_new
  constructor
  · exact fun q => ⟨fun _ _ _ => rfl, rfl, fun _ _ => rfl⟩
  · refine ⟨?_, ?_, ?_, ?_, ?_, List.Pairwise.nil⟩
    · intro q p k
      exact ((hzero q p k).trans (hzero p p k).symm).le
    · exact fun d hd => absurd hd not_mem_nil
    · exact fun d hd => absurd hd not_mem_nil
    · exact fun q d hd => absurd hd not_mem_nil
    · exact fun e he => absurd he not_mem_nil

variable [DecidableEq τ]

/-- **Every step that keeps the own versions is an effect of the anti-entropy**, and keeps
the tables tidy. -/
theorem step_effect (shape : ScuttlebuttShape ρ κ) (crdt : StateCrdt σ) (h : s.Tables)
    {action : ScuttlebuttAction ρ κ τ σ} (hkeeps : s.Keeps node action) :
    Replicas.Effect s.replicas (s.step shape crdt node action).replicas ∧
      (s.step shape crdt node action).Tables := by
  cases action with
  | addPeer peer =>
    rw [step]
    cases hadd : (s.sync node).addPeer shape peer with
    | error e => exact ⟨.silent, h⟩
    | ok sync' => exact setSync_same_effect h ((h node).addPeer hadd)
  | register key type =>
    rw [step]
    cases hreg : (s.sync node).registerState shape key type with
    | error e => exact ⟨.silent, h⟩
    | ok sync' => exact setSync_same_effect h ((h node).registerState hreg)
  | update key change =>
    exact ⟨.grow node key _ (change.grows (s.state node key)), h⟩
  | publish key type =>
    rw [step]
    cases hpub : (s.sync node).publishLocalChange key type (s.state node key) with
    | error e => exact ⟨.silent, h⟩
    | ok result =>
      obtain ⟨sync', delta⟩ := result
      obtain ⟨htab, rfl⟩ := (h node).publishLocalChange hpub
      refine ⟨?_, tables_setSync h htab⟩
      have hrep := replicas_setSync_entry htab
      have hown : (s.setSync node sync').replicas.version node node key =
          (s.sync node).version node key + 1 := by
        rw [hrep]
        exact Replicas.setVersion_same node node key _
      have heff := Replicas.Effect.publish node key _ hrep
      rw [Replicas.deltaOf, hown] at heff
      exact heff
  | answer request type =>
    rw [step]
    cases hans : (s.sync node).deltaForRequest request type (s.state node request.key) with
    | error e => exact ⟨.silent, h⟩
    | ok delta =>
      obtain rfl := (h node).deltaForRequest hans
      exact ⟨.relay node request.origin request.key, h⟩
  | apply i type =>
    rw [step]
    cases hdel : s.sent[i]? with
    | none => exact ⟨.silent, h⟩
    | some delta =>
      have hsent : delta ∈ s.replicas.sent := mem_of_getElem? hdel
      cases happ : (s.sync node).applyDelta shape crdt delta type (s.state node delta.key) with
      | error e =>
        simp only [happ]
        exact ⟨.silent, h⟩
      | ok result =>
        obtain ⟨sync', merged, applied⟩ := result
        simp only [happ]
        rcases (h node).applyDelta happ with ⟨-, rfl, rfl⟩ | ⟨hnew, hmer, htab⟩
        · rw [setState_self, setSync_self]
          exact ⟨.silent, h⟩
        · obtain ⟨hstate, hdelS⟩ := crdt.above _ _ _ hmer
          have hgrown : (s.setState node delta.key merged).Tables := h
          refine ⟨?_, tables_setSync hgrown htab⟩
          have hent := replicas_setSync_entry (s := s.setState node delta.key merged) htab
          rw [hent]
          exact .receive node delta hsent hnew merged hstate hdelS
  | compact peer floor =>
    rw [step]
    cases hcom : (s.sync node).compactPeerVersions peer floor with
    | error e => exact ⟨.silent, h⟩
    | ok result =>
      obtain ⟨sync', dropped⟩ := result
      have htab := (h node).compactPeerVersions hcom
      refine ⟨?_, tables_setSync h htab⟩
      have hver := version_setSync (s := s) htab
      apply Replicas.Effect.forget (s.setSync node sync').replicas.version
      · intro q p k
        rw [hver]
        by_cases hq : q = node
        · subst hq
          rw [if_pos rfl]
          by_cases hdrop : p = peer ∧ (s.sync q).version p k < floor
          · rw [if_pos hdrop]
            exact zero_le
          · rw [if_neg hdrop]
            exact le_rfl
        · rw [if_neg hq]
      · intro p k
        rw [hver]
        by_cases hp : p = node
        · subst hp
          rw [if_pos rfl]
          by_cases hdrop : p = peer ∧ (s.sync p).version p k < floor
          · rw [if_pos hdrop]
            rcases hkeeps hdrop.1.symm k with hzero | hfloor
            · exact hzero.symm
            · exact absurd hdrop.2 (not_lt.mpr hfloor)
          · rw [if_neg hdrop]
            rfl
        · rw [if_neg hp]

theorem run_sound {shape : ScuttlebuttShape ρ κ} {crdt : StateCrdt σ}
    {actions : List (ρ × ScuttlebuttAction ρ κ τ σ)} (htab : s.Tables)
    (hsound : Replicas.Sound s.replicas) (hkeeps : KeepsAll shape crdt s actions) :
    Replicas.Sound (s.run shape crdt actions).replicas := by
  induction actions generalizing s with
  | nil => exact hsound
  | cons action rest ih =>
    obtain ⟨hfir, hrest⟩ := hkeeps
    obtain ⟨heff, htab'⟩ := step_effect shape crdt htab hfir
    exact ih htab' (heff.sound hsound) hrest

/-- **What a node holds of an origin is covered by its state, and the versions of one
origin increase**, in every run in which no node drops a version of its own. -/
theorem scuttlebutt_covers_published {shape : ScuttlebuttShape ρ κ} {crdt : StateCrdt σ}
    (start : ρ → κ → σ) (actions : List (ρ × ScuttlebuttAction ρ κ τ σ))
    (hkeeps : KeepsAll shape crdt (init start) actions) :
    (∀ node origin key v, 1 ≤ v →
      v ≤ (((init start).run shape crdt actions).sync node).version origin key →
      ∀ delta ∈ ((init start).run shape crdt actions).published,
        delta.origin = origin → delta.key = key → delta.version ≤ v →
        delta.state ≤ ((init start).run shape crdt actions).state node key) ∧
    ((init start).run shape crdt actions).published.Pairwise fun d e =>
      d.origin = e.origin → d.key = e.key → d.version < e.version := by
  obtain ⟨htables, hsound⟩ : (init start : ScuttlebuttSystem ρ κ τ σ).Tables ∧
      Replicas.Sound (init start : ScuttlebuttSystem ρ κ τ σ).replicas := init_sound start
  have hrun := run_sound htables hsound hkeeps
  refine ⟨?_, hrun.increasing⟩
  rintro node origin key v - hheld delta hdelta rfl rfl hversion
  exact hrun.covered node delta hdelta (hversion.trans hheld)

def maxCrdt : StateCrdt Nat where
  merge a b := some (max a b)
  above a b c h := by
    rw [← Option.some.inj h]
    exact ⟨le_max_left a b, le_max_right a b⟩

def countUp : LocalUpdate Nat where
  run a := a + 1
  grows a := Nat.le_succ a

/-- Two nodes: the first one publishes twice and the second one takes both deltas in, the
later one first. -/
theorem scuttlebutt_covers_published_reordered :
    let shape : ScuttlebuttShape Nat Nat := ⟨4, 4, (· == 0), (· == 0)⟩
    let actions : List (Nat × ScuttlebuttAction Nat Nat Unit Nat) :=
      [(1, .register 5 ()), (2, .register 5 ()), (2, .addPeer 1), (1, .update 5 countUp),
        (1, .publish 5 ()), (1, .update 5 countUp), (1, .publish 5 ()), (2, .apply 1 ()),
        (2, .apply 0 ()), (2, .compact 1 1)]
    ((init fun _ _ => 0).run shape maxCrdt actions).published.Pairwise fun d e =>
      d.origin = e.origin → d.key = e.key → d.version < e.version := by
  intro shape actions
  refine (scuttlebutt_covers_published (fun _ _ => 0) actions ?_).2
  simp only [actions, KeepsAll, Keeps, true_and, and_true]
  intro h
  cases h

/-- A node that compacts its own versions publishes another state under a version that the
other node holds. -/
theorem scuttlebutt_self_compaction_reuses_version :
    let shape : ScuttlebuttShape Nat Nat := ⟨4, 4, (· == 0), (· == 0)⟩
    let actions : List (Nat × ScuttlebuttAction Nat Nat Unit Nat) :=
      [(1, .register 5 ()), (2, .register 5 ()), (2, .addPeer 1), (1, .publish 5 ()),
        (2, .apply 0 ()), (1, .compact 1 2), (1, .update 5 countUp), (1, .publish 5 ())]
    let s := (init fun _ _ => 0).run shape maxCrdt actions
    s.published.map (fun d => (d.origin, d.key, d.version, d.state)) =
        [(1, 5, 1, 0), (1, 5, 1, 1)] ∧
      (s.sync 2).version 1 5 = 1 ∧ s.state 2 5 = 0 := by
  decide

end ScuttlebuttSystem

/-! ### Gossip that names the node itself -/

/-- What one node is called with.  Gossip brings deltas and digests with anything in them. -/
inductive ScuttlebuttCall (ρ κ τ σ : Type) [Preorder σ]
  | addPeer (peer : ρ)
  | register (key : κ) (type : τ)
  | update (key : κ) (change : LocalUpdate σ)
  | publish (key : κ) (type : τ)
  | delta (delta : Delta ρ κ σ) (type : τ)
  | digest (remote : List (VersionEntry ρ κ))

/-- One node: its table, its CRDT for each key, and how often each key was published. -/
structure ScuttlebuttNode (ρ κ τ σ : Type) where
  sync : ScuttlebuttSync ρ κ τ
  state : κ → σ
  publications : κ → Nat := fun _ => 0

namespace ScuttlebuttNode
open ScuttlebuttSync

variable {ρ κ τ σ : Type} [DecidableEq ρ] [DecidableEq κ] [DecidableEq τ] [Preorder σ]
  (shape : ScuttlebuttShape ρ κ) (crdt : StateCrdt σ)

variable (n : ScuttlebuttNode ρ κ τ σ)

/-- One call.  It changes nothing if it returns an error, and `compare_digest` only reads. -/
def call : ScuttlebuttCall ρ κ τ σ → ScuttlebuttNode ρ κ τ σ
  | .addPeer peer => { n with sync := (n.sync.addPeer shape peer).toOption.getD n.sync }
  | .register key type =>
    { n with sync := (n.sync.registerState shape key type).toOption.getD n.sync }
  | .update key change => { n with state := Function.update n.state key (change.run (n.state key)) }
  | .publish key type =>
    match n.sync.publishLocalChange key type (n.state key) with
    | .ok (sync, _) =>
      { n with
        sync
        publications := Function.update n.publications key (n.publications key + 1) }
    | .error _ => n
  | .delta delta type =>
    match n.sync.applyDelta shape crdt delta type (n.state delta.key) with
    | .ok (sync, merged, _) =>
      { n with
        sync
        state := Function.update n.state delta.key merged }
    | .error _ => n
  | .digest _ => n

def run (node : ρ) (start : κ → σ) (calls : List (ScuttlebuttCall ρ κ τ σ)) :
    ScuttlebuttNode ρ κ τ σ :=
  calls.foldl (call shape crdt) { sync := { localPeer := node }, state := start }

/-- The version of a key that the node records for itself. -/
def own (key : κ) : Nat := n.sync.version n.sync.localPeer key

/-- A delta that names the node as its origin and is no error has no version above the own one. -/
def OwnIsOld : ScuttlebuttCall ρ κ τ σ → Prop
  | .delta delta type => ∀ result, delta.origin = n.sync.localPeer →
      n.sync.applyDelta shape crdt delta type (n.state delta.key) = .ok result →
      delta.version ≤ n.own delta.key
  | _ => True

/-- A call that is no publication leaves the own versions as they are. -/
def KeepsOwn : ScuttlebuttCall ρ κ τ σ → Prop
  | .publish _ _ => True
  | c => ∀ key, (n.call shape crdt c).own key = n.own key

/-- The own versions count the publications. -/
structure Counted : Prop where
  table : Table n.sync.localPeer n.sync n.sync.version
  own_eq : ∀ key, n.own key = n.publications key

variable {shape crdt} {n : ScuttlebuttNode ρ κ τ σ} {node : ρ} {sync : ScuttlebuttSync ρ κ τ}
  {held : ρ → κ → Nat} {c : ScuttlebuttCall ρ κ τ σ}

omit [DecidableEq τ] [Preorder σ] in
theorem counted_of_table (hsync : Table node sync held) {publications : κ → Nat}
    (hown : ∀ key, held node key = publications key) (state : κ → σ) :
    Counted { sync, state, publications : ScuttlebuttNode ρ κ τ σ } := by
  obtain rfl := hsync.owner
  exact ⟨⟨hsync.tidy, rfl, fun _ _ => rfl⟩, fun key => (hsync.version_eq _ key).trans (hown key)⟩

omit [DecidableEq τ] [Preorder σ] in
theorem Counted.replace (h : n.Counted) (hsync : Table n.sync.localPeer sync held)
    (hsame : ∀ key, held n.sync.localPeer key = n.own key) (state : κ → σ) :
    Counted { n with sync, state } ∧ ∀ key, own { n with sync, state } key = n.own key := by
  have hcounted := counted_of_table hsync (fun key => (hsame key).trans (h.own_eq key)) state
  exact ⟨hcounted, fun key => (hcounted.own_eq key).trans (h.own_eq key).symm⟩

/-- **What a call does**: it counts, and leaves the own versions alone unless it publishes, or it
takes in a delta that names the node. -/
theorem Counted.call_cases (h : n.Counted) (c : ScuttlebuttCall ρ κ τ σ) :
    (n.OwnIsOld shape crdt c ∧ (n.call shape crdt c).Counted ∧ n.KeepsOwn shape crdt c) ∨
    ¬ n.OwnIsOld shape crdt c ∧ ¬ n.KeepsOwn shape crdt c := by
  cases c with
  | addPeer peer =>
    refine .inl ⟨trivial, ?_⟩
    simp only [KeepsOwn, call]
    cases hadd : n.sync.addPeer shape peer with
    | error e => exact ⟨h, fun _ => rfl⟩
    | ok sync' => exact h.replace (h.table.addPeer hadd) (fun _ => rfl) n.state
  | register key type =>
    refine .inl ⟨trivial, ?_⟩
    simp only [KeepsOwn, call]
    cases hreg : n.sync.registerState shape key type with
    | error e => exact ⟨h, fun _ => rfl⟩
    | ok sync' => exact h.replace (h.table.registerState hreg) (fun _ => rfl) n.state
  | update key change => exact .inl ⟨trivial, ⟨h.table, h.own_eq⟩, fun _ => rfl⟩
  | digest remote => exact .inl ⟨trivial, h, fun _ => rfl⟩
  | publish key type =>
    refine .inl ⟨trivial, ?_, trivial⟩
    rw [call]
    cases hpub : n.sync.publishLocalChange key type (n.state key) with
    | error e => exact h
    | ok result =>
      refine counted_of_table (h.table.publishLocalChange hpub).1 (fun other => ?_) n.state
      by_cases hother : other = key
      · rw [hother, if_pos ⟨rfl, rfl⟩, Function.update_self, ← h.own_eq key]
        rfl
      · rw [if_neg fun hset => hother hset.2, Function.update_of_ne hother]
        exact h.own_eq other
  | delta delta type =>
    simp only [OwnIsOld, KeepsOwn, call]
    cases happ : n.sync.applyDelta shape crdt delta type (n.state delta.key) with
    | error e => exact .inl ⟨fun _ _ => nofun, h, fun _ => rfl⟩
    | ok result =>
      obtain ⟨sync', merged, applied⟩ := result
      rcases h.table.applyDelta happ with ⟨hold, rfl, rfl⟩ | ⟨hnew, -, hsync⟩
      · refine .inl ⟨fun _ horigin _ => ?_, h.replace h.table (fun _ => rfl) _⟩
        rwa [horigin] at hold
      · by_cases horigin : delta.origin = n.sync.localPeer
        · rw [horigin] at hnew
          refine .inr ⟨fun hold => hnew.not_ge (hold _ horigin rfl), fun hkept => hnew.ne' ?_⟩
          have hown := hkept delta.key
          rw [own, hsync.owner, hsync.version_eq, if_pos ⟨horigin.symm, rfl⟩] at hown
          exact hown
        · refine .inl ⟨fun _ hown => absurd hown horigin, h.replace hsync (fun key => ?_) _⟩
          exact if_neg fun hset => horigin hset.1.symm

omit [Preorder σ] in
theorem Counted.publishes (h : n.Counted) {key : κ} {type : τ} {j : Nat} (state : σ)
    (hkey : n.sync.requireKey key type = .ok j) (hfew : n.publications key < u64Max) :
    ∃ result, n.sync.publishLocalChange key type state = .ok result := by
  rw [← h.own_eq, own, version_of_slots (findPeer_local n.sync) (requireKey_ok hkey)] at hfew
  rw [publishLocalChange, hkey]
  exact ⟨_, if_neg hfew.ne⟩

/-- **Gossip and the own versions.**  Throughout any calls on a node, no call but a publication
changes an own version, and every registered key can be published as long as there were fewer
publications of it than versions, exactly if no delta that names the node as its origin is accepted
under a version above the own one. -/
theorem own_versions_kept_iff (shape : ScuttlebuttShape ρ κ) (crdt : StateCrdt σ) (node : ρ)
    (start : κ → σ) (calls : List (ScuttlebuttCall ρ κ τ σ)) :
    ((∀ before c after, calls = before ++ c :: after →
        (run shape crdt node start before).KeepsOwn shape crdt c) ∧
      ∀ before after, calls = before ++ after → ∀ key type j (state : σ),
        (run shape crdt node start before).sync.requireKey key type = .ok j →
        (run shape crdt node start before).publications key < u64Max → ∃ result,
          (run shape crdt node start before).sync.publishLocalChange key type state = .ok result) ↔
    ∀ before c after, calls = before ++ c :: after →
      (run shape crdt node start before).OwnIsOld shape crdt c := by
  have hstart : Counted { sync := { localPeer := node }, state := start :
      ScuttlebuttNode ρ κ τ σ } :=
    counted_of_table ⟨fun _ _ _ => rfl, rfl, version_new node⟩ (fun _ => rfl) start
  constructor
  · rintro ⟨hkept, -⟩ before c after heq
    have hcounted := foldl_before_inv Counted hstart (fun n c h hkept =>
      ((h.call_cases c).resolve_right fun hnot => hnot.2 hkept).2.1) hkept
    exact (((hcounted before _ heq).call_cases c).resolve_right fun hnot =>
      hnot.2 (hkept before c after heq)).1
  · intro hold
    have hcounted := foldl_before_inv Counted hstart (fun n c h hold =>
      ((h.call_cases c).resolve_right fun hnot => hnot.1 hold).2.1) hold
    refine ⟨fun before c after heq => ?_, fun before after heq key type j state => ?_⟩
    · exact (((hcounted before _ heq).call_cases c).resolve_right fun hnot =>
        hnot.1 (hold before c after heq)).2.2
    · exact (hcounted before after heq).publishes state

/-- A delta that names its receiver carries the largest version: the next publication fails. -/
theorem forged_delta_stops_publications :
    let shape : ScuttlebuttShape Nat Nat := ⟨4, 4, (· == 0), (· == 0)⟩
    let n := run shape ScuttlebuttSystem.maxCrdt 1 (fun _ => 0)
      [.register 5 (), .delta ⟨1, 5, u64Max, 0⟩ ()]
    n.publications 5 = 0 ∧ n.own 5 = u64Max ∧ n.sync.requireKey 5 () = .ok 0 ∧
      (n.sync.publishLocalChange 5 () (0 : Nat)).map (fun _ => ()) = .error .versionOverflow := by
  decide

end ScuttlebuttNode

end Crucible
