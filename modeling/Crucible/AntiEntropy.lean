import Mathlib.Order.Nat
import Mathlib.Data.List.Basic

/-! # Versioned anti-entropy

Every node keeps one state for each key and, for each origin and key, the version up to
which it has heard of the origin's publications.  Deltas carry a state under the version
of some origin; they may be delayed, reordered, duplicated and lost.

As long as no node loses count of its own publications, a node's state for a key is above
everything that an origin published up to the version that the node holds, and the
versions of one origin increase (`Sound`, kept by every `Effect`).
-/
namespace Crucible
open List

/-- A state that is sent under a version of an origin. -/
structure Delta (ρ κ σ : Type) where
  origin : ρ
  key : κ
  version : Nat
  state : σ

/-- The versions and states of all nodes, with all that was sent and published. -/
@[ext]
structure Replicas (ρ κ σ : Type) where
  version : ρ → ρ → κ → Nat
  state : ρ → κ → σ
  sent : List (Delta ρ κ σ)
  published : List (Delta ρ κ σ)

namespace Replicas

variable {ρ κ σ : Type} [DecidableEq ρ] [DecidableEq κ] [Preorder σ]

def setVersion (s : Replicas ρ κ σ) (node origin : ρ) (key : κ) (v : Nat) : Replicas ρ κ σ where
  version := fun q p k => if q = node ∧ p = origin ∧ k = key then v else s.version q p k
  state := s.state
  sent := s.sent
  published := s.published

def setState (s : Replicas ρ κ σ) (node : ρ) (key : κ) (x : σ) : Replicas ρ κ σ where
  version := s.version
  state := fun q k => if q = node ∧ k = key then x else s.state q k
  sent := s.sent
  published := s.published

def deltaOf (s : Replicas ρ κ σ) (node origin : ρ) (key : κ) : Delta ρ κ σ :=
  ⟨origin, key, s.version node origin key, s.state node key⟩

/-- One step of the nodes that does not lose count of a node's own publications. -/
inductive Effect (s : Replicas ρ κ σ) : Replicas ρ κ σ → Prop where
  | silent : Effect s s
  | grow (node : ρ) (key : κ) (x : σ) (h : s.state node key ≤ x) : Effect s (s.setState node key x)
  | publish (node : ρ) (key : κ) (s' : Replicas ρ κ σ)
      (hs' : s' = s.setVersion node node key (s.version node node key + 1)) :
      Effect s { s' with
        sent := s.sent ++ [s'.deltaOf node node key]
        published := s.published ++ [s'.deltaOf node node key] }
  | relay (node origin : ρ) (key : κ) :
      Effect s { s with sent := s.sent ++ [s.deltaOf node origin key] }
  | receive (node : ρ) (d : Delta ρ κ σ) (hd : d ∈ s.sent)
      (hnew : s.version node d.origin d.key < d.version) (x : σ) (hstate : s.state node d.key ≤ x)
      (hdelta : d.state ≤ x) :
      Effect s ((s.setState node d.key x).setVersion node d.origin d.key d.version)
  | forget (version : ρ → ρ → κ → Nat) (hle : ∀ q p k, version q p k ≤ s.version q p k)
      (hown : ∀ p k, version p p k = s.version p p k) : Effect s { s with version := version }

/-- What a node holds of an origin is covered by its state. -/
structure Sound (s : Replicas ρ κ σ) : Prop where
  known : ∀ q p k, s.version q p k ≤ s.version p p k
  sent_known : ∀ d ∈ s.sent, d.version ≤ s.version d.origin d.origin d.key
  published_known : ∀ d ∈ s.published, d.version ≤ s.version d.origin d.origin d.key
  covered : ∀ q, ∀ d ∈ s.published, d.version ≤ s.version q d.origin d.key →
    d.state ≤ s.state q d.key
  sent_covered : ∀ e ∈ s.sent, ∀ d ∈ s.published, d.origin = e.origin → d.key = e.key →
    d.version ≤ e.version → d.state ≤ e.state
  increasing : s.published.Pairwise fun d e =>
    d.origin = e.origin → d.key = e.key → d.version < e.version

variable {s s' : Replicas ρ κ σ} {node : ρ} {key : κ}

theorem Sound.setState (h : Sound s) {x : σ} (hx : s.state node key ≤ x) :
    Sound (s.setState node key x) := by
  refine ⟨h.known, h.sent_known, h.published_known, ?_, h.sent_covered, h.increasing⟩
  intro q d hd hver
  refine (h.covered q d hd hver).trans ?_
  change s.state q d.key ≤ if q = node ∧ d.key = key then x else s.state q d.key
  by_cases hqk : q = node ∧ d.key = key
  · rw [if_pos hqk, hqk.1, hqk.2]
    exact hx
  · rw [if_neg hqk]

section
omit [DecidableEq ρ] [DecidableEq κ]

theorem Sound.relay (h : Sound s) (node origin : ρ) (key : κ) :
    Sound { s with sent := s.sent ++ [s.deltaOf node origin key] } := by
  refine ⟨h.known, ?_, h.published_known, h.covered, ?_, h.increasing⟩
  · exact forall_mem_append.mpr
      ⟨h.sent_known, forall_mem_singleton.mpr (h.known node origin key)⟩
  · refine forall_mem_append.mpr ⟨h.sent_covered, forall_mem_singleton.mpr ?_⟩
    rintro d hd rfl rfl hver
    exact h.covered node d hd hver

/-- What it takes to change the versions: the own ones grow, and stay ahead. -/
theorem Sound.versions (h : Sound s) {version : ρ → ρ → κ → Nat}
    (hown : ∀ p k, s.version p p k ≤ version p p k) (hle : ∀ q p k, version q p k ≤ version p p k)
    (hcov : ∀ q, ∀ d ∈ s.published, d.version ≤ version q d.origin d.key →
      d.state ≤ s.state q d.key) : Sound { s with version := version } :=
  ⟨hle, fun d hd => (h.sent_known d hd).trans (hown _ _),
    fun d hd => (h.published_known d hd).trans (hown _ _), hcov, h.sent_covered, h.increasing⟩

/-- What it takes to publish a delta: it is newer than all that was sent and published. -/
theorem Sound.record (h : Sound s) {e : Delta ρ κ σ}
    (hknown : e.version ≤ s.version e.origin e.origin e.key)
    (hcov : ∀ q, e.version ≤ s.version q e.origin e.key → e.state ≤ s.state q e.key)
    (hnew : ∀ d : Delta ρ κ σ, d ∈ s.sent ∨ d ∈ s.published → d.origin = e.origin →
      d.key = e.key → d.version < e.version) :
    Sound { s with published := s.published ++ [e] } := by
  refine ⟨h.known, h.sent_known, ?_, fun q => ?_, fun d hd => ?_, ?_⟩
  · exact forall_mem_append.mpr ⟨h.published_known, forall_mem_singleton.mpr hknown⟩
  · exact forall_mem_append.mpr ⟨h.covered q, forall_mem_singleton.mpr (hcov q)⟩
  · refine forall_mem_append.mpr ⟨h.sent_covered d hd, forall_mem_singleton.mpr ?_⟩
    exact fun horig hkey hle => absurd hle (hnew d (.inl hd) horig.symm hkey.symm).not_ge
  · exact pairwise_append.mpr ⟨h.increasing, pairwise_singleton _ _,
      fun d hd => forall_mem_singleton.mpr (hnew d (.inr hd))⟩

end

section
omit [Preorder σ]
variable {origin q p : ρ} {k : κ} {v : Nat}

theorem setVersion_same (node origin : ρ) (key : κ) (v : Nat) :
    (s.setVersion node origin key v).version node origin key = v :=
  if_pos ⟨rfl, rfl, rfl⟩

theorem setVersion_other (h : ¬ (q = node ∧ p = origin ∧ k = key)) :
    (s.setVersion node origin key v).version q p k = s.version q p k :=
  if_neg h

end

theorem Sound.receive (h : Sound s) {d : Delta ρ κ σ} (hd : d ∈ s.sent)
    (hnew : s.version node d.origin d.key < d.version) (hstate : d.state ≤ s.state node d.key) :
    Sound (s.setVersion node d.origin d.key d.version) := by
  have hown : ∀ p k, (s.setVersion node d.origin d.key d.version).version p p k =
      s.version p p k := by
    intro p k
    apply setVersion_other
    rintro ⟨rfl, rfl, rfl⟩
    exact absurd (h.sent_known d hd) hnew.not_ge
  refine h.versions (fun p k => (hown p k).ge) (fun q p k => (?_ : _ ≤ _).trans (hown p k).ge) ?_
  · by_cases hset : q = node ∧ p = d.origin ∧ k = d.key
    · obtain ⟨rfl, rfl, rfl⟩ := hset
      exact (setVersion_same ..).le.trans (h.sent_known d hd)
    · exact (setVersion_other hset).le.trans (h.known q p k)
  · intro q e he hver
    by_cases hset : q = node ∧ e.origin = d.origin ∧ e.key = d.key
    · obtain ⟨rfl, horig, hkey⟩ := hset
      rw [horig, hkey] at hver
      rw [hkey]
      exact (h.sent_covered d hd e he horig hkey (hver.trans (setVersion_same ..).le)).trans hstate
    · exact h.covered q e he (hver.trans (setVersion_other hset).le)

theorem Sound.count (h : Sound s) (node : ρ) (key : κ) :
    Sound (s.setVersion node node key (s.version node node key + 1)) := by
  have hgrows : ∀ p k, s.version p p k ≤
      (s.setVersion node node key (s.version node node key + 1)).version p p k := by
    intro p k
    by_cases hset : p = node ∧ p = node ∧ k = key
    · obtain ⟨rfl, -, rfl⟩ := hset
      exact (Nat.le_succ _).trans (setVersion_same ..).ge
    · exact (setVersion_other hset).ge
  refine h.versions hgrows (fun q p k => ?_) fun q d hd hver => h.covered q d hd ?_
  · by_cases hset : q = node ∧ p = node ∧ k = key
    · obtain ⟨rfl, rfl, rfl⟩ := hset
      exact le_rfl
    · exact (setVersion_other hset).le.trans ((h.known q p k).trans (hgrows p k))
  · -- nothing was published under the new version
    by_cases hset : q = node ∧ d.origin = node ∧ d.key = key
    · obtain ⟨rfl, rfl, rfl⟩ := hset
      exact h.published_known d hd
    · exact hver.trans (setVersion_other hset).le

theorem Sound.publish (h : Sound s) (node : ρ) (key : κ)
    (hs' : s' = s.setVersion node node key (s.version node node key + 1)) :
    Sound { s' with
      sent := s.sent ++ [s'.deltaOf node node key]
      published := s.published ++ [s'.deltaOf node node key] } := by
  subst hs'
  refine ((h.count node key).record le_rfl (fun q hver => ?_) fun d hd => ?_).relay node node key
  · by_cases hq : q = node
    · rw [hq]
      exact le_rfl
    · -- the others have heard of the publications before only
      have hlt := (h.known q node key).trans_lt (Nat.lt_succ_self _)
      have hle := hver.trans (setVersion_other fun h => hq h.1).le
      exact absurd ((setVersion_same ..).ge.trans hle) hlt.not_ge
  · rintro rfl rfl
    have hknown := hd.elim (h.sent_known d) (h.published_known d)
    exact (Nat.lt_succ_of_le hknown).trans_le (setVersion_same ..).ge

/-- **Every effect keeps what nodes hold covered.** -/
theorem Effect.sound (heff : Effect s s') (h : Sound s) : Sound s' := by
  cases heff with
  | silent => exact h
  | grow node key x hx => exact h.setState hx
  | publish node key s'' hs'' => exact h.publish node key hs''
  | relay node origin key => exact h.relay node origin key
  | receive node d hd hnew x hstate hdel =>
    apply (h.setState hstate).receive hd hnew
    change d.state ≤ if node = node ∧ d.key = d.key then x else s.state node d.key
    rw [if_pos ⟨rfl, rfl⟩]
    exact hdel
  | forget version hle hown =>
    exact h.versions (fun p k => (hown p k).ge)
      (fun q p k => (hle q p k).trans ((h.known q p k).trans (hown p k).ge))
      fun q d hd hver => h.covered q d hd (hver.trans (hle q _ _))

end Replicas

end Crucible
