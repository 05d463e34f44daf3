import Crucible.Topmost
import Crucible.VectorClock
import Mathlib.Data.Fin.VecNotation
import Mathlib.Data.Set.Card

/-! # The multi-value register

A version is a value with the vector clock of its write.  The register keeps the versions
that no other one happened after, in the order of their clocks and values.

A merge inserts the other side's versions one after another and is refused as soon as one
of them finds no slot.  What it holds in between may be more than what it holds at the end.
So a merge succeeds exactly if every first part of the other side leaves no more topmost
versions than there are slots, and this may differ between the two directions.
-/
namespace Crucible
open List Set

structure MVVersion (V : Type) (n : Nat) where
  value : V
  clock : VectorClockSnapshot n
deriving DecidableEq

namespace MVRegister

variable {V : Type} [LinearOrder V] {n : Nat}

/-- The loop of `clock_less_`: the first entry that differs decides. -/
def firstLess (a b : VectorClockSnapshot n) : List (Fin n) → Bool
  | [] => false
  | i :: rest => if a i ≠ b i then decide (a i < b i) else firstLess a b rest

def clockLess (a b : MVVersion V n) : Bool := firstLess a.clock b.clock (finRange n)

def versionLess (a b : MVVersion V n) : Bool :=
  if clockLess a b then true
  else if clockLess b a then false
  else decide (a.value < b.value)

/-- `canonicalize_`: each version moves to the front as long as it is less than the one
before it.  The sorted part is held back to front. -/
def canonicalize (versions : List (MVVersion V n)) : List (MVVersion V n) :=
  (versions.foldl (fun sorted key => sorted.orderedInsert (fun a b => ¬ versionLess a b = true) key)
    []).reverse

/-- The scan of `insert_version_into_`: nothing if the incoming version is there or
happened before one that is, otherwise the versions that did not happen before it. -/
def keepVersions (incoming : MVVersion V n) : List (MVVersion V n) → Option (List (MVVersion V n))
  | [] => some []
  | existing :: rest =>
    if existing = incoming then none
    else if incoming.clock.happensBefore existing.clock then none
    else if existing.clock.happensBefore incoming.clock then keepVersions incoming rest
    else (keepVersions incoming rest).map (existing :: ·)

def insertVersionInto (maxVersions : Nat) (state : List (MVVersion V n))
    (incoming : MVVersion V n) : List (MVVersion V n) × Bool :=
  if maxVersions < state.length then (state, false)
  else match keepVersions incoming state with
    | none => (state, true)
    | some kept =>
      if maxVersions ≤ kept.length then (state, false)
      else (canonicalize (kept ++ [incoming]), true)

def assign (maxVersions : Nat) (state : List (MVVersion V n)) (version : MVVersion V n) :
    List (MVVersion V n) × Bool :=
  insertVersionInto maxVersions state version

/-- The loop of `merge_state_into_`. -/
def insertAll (maxVersions : Nat) (state : List (MVVersion V n)) :
    List (MVVersion V n) → List (MVVersion V n) × Bool
  | [] => (state, true)
  | version :: others =>
    match insertVersionInto maxVersions state version with
    | (state', true) => insertAll maxVersions state' others
    | (state', false) => (state', false)

/-- `merge`: `merge_state_into_` on a copy, which replaces the target if it succeeds. -/
def merge (maxVersions : Nat) (target other : List (MVVersion V n)) : List (MVVersion V n) × Bool :=
  if maxVersions < other.length then (target, false)
  else match insertAll maxVersions target other with
    | (staged, true) => (staged, true)
    | (_, false) => (target, false)

/-- The states that assignments, merges and states off the wire lead to. -/
inductive MVReachable (maxVersions : Nat) : List (MVVersion V n) → Prop where
  | empty : MVReachable maxVersions []
  | assign {s : List (MVVersion V n)} (version : MVVersion V n) (hs : MVReachable maxVersions s) :
      MVReachable maxVersions (assign maxVersions s version).1
  | merge {s t : List (MVVersion V n)} (hs : MVReachable maxVersions s)
      (ht : MVReachable maxVersions t) : MVReachable maxVersions (merge maxVersions s t).1
  | gossip {s : List (MVVersion V n)} (other : List (MVVersion V n))
      (hs : MVReachable maxVersions s) : MVReachable maxVersions (merge maxVersions s other).1

/-! ### The order of the versions -/

def Before (a b : MVVersion V n) : Prop := a.clock.happensBefore b.clock = true

omit [LinearOrder V] in
theorem before_iff {a b : MVVersion V n} : Before a b ↔ a.clock < b.clock := by
  rw [Before, VectorClockSnapshot.happensBefore, Bool.and_eq_true, Bool.not_eq_true',
    VectorClockSnapshot.leq_iff, beq_eq_false_iff_ne, lt_iff_le_and_ne, Pi.le_def]

instance : IsStrictOrder (MVVersion V n) Before where
  irrefl _ h := lt_irrefl _ (before_iff.mp h)
  trans _ _ _ hab hbc := before_iff.mpr ((before_iff.mp hab).trans (before_iff.mp hbc))

/-- The entries of a version's clock and its value, in lexicographic order. -/
def sortKey (v : MVVersion V n) : Lex (List Nat × V) :=
  toLex ((finRange n).map v.clock, v.value)

omit [LinearOrder V] in
theorem sortKey_injective : Function.Injective (sortKey : MVVersion V n → _) := by
  intro a b h
  obtain ⟨hclock, hval⟩ := Prod.mk.inj (toLex.injective h)
  have hclock' : a.clock = b.clock := by
    funext i
    exact map_inj_left.mp hclock i (mem_finRange i)
  cases a
  cases b
  simp_all

theorem firstLess_iff (a b : VectorClockSnapshot n) (entries : List (Fin n)) :
    firstLess a b entries = true ↔ entries.map a < entries.map b := by
  induction entries with
  | nil => simp [firstLess]
  | cons i rest ih =>
    rw [firstLess, map_cons, map_cons, cons_lt_cons_iff]
    by_cases hne : a i ≠ b i
    · rw [if_pos hne, decide_eq_true_iff]
      exact ⟨Or.inl, fun h => h.resolve_right fun h => hne h.1⟩
    · rw [if_neg hne, ih]
      rw [not_ne_iff] at hne
      rw [hne]
      exact ⟨fun h => .inr ⟨rfl, h⟩, fun h => (h.resolve_left (lt_irrefl _)).2⟩

theorem versionLess_iff (a b : MVVersion V n) : versionLess a b = true ↔ sortKey a < sortKey b := by
  have hab := firstLess_iff a.clock b.clock (finRange n)
  have hba := firstLess_iff b.clock a.clock (finRange n)
  rw [versionLess, sortKey, sortKey, Prod.Lex.toLex_lt_toLex]
  rw [clockLess, clockLess]
  by_cases hless : firstLess a.clock b.clock (finRange n) = true
  · rw [if_pos hless]
    exact ⟨fun _ => .inl (hab.mp hless), fun _ => rfl⟩
  · rw [if_neg hless]
    have hge := not_lt.mp (mt hab.mpr hless)
    by_cases hgreat : firstLess b.clock a.clock (finRange n) = true
    · rw [if_pos hgreat]
      have hlt := hba.mp hgreat
      refine ⟨fun h => absurd h Bool.false_ne_true, ?_⟩
      rintro (h | ⟨h, -⟩)
      · exact absurd h (not_lt.mpr hlt.le)
      · exact absurd h hlt.ne'
    · rw [if_neg hgreat, decide_eq_true_iff]
      have heq := le_antisymm (not_lt.mp (mt hba.mpr hgreat)) hge
      exact ⟨fun h => .inr ⟨heq, h⟩, fun h => (h.resolve_left (not_lt.mpr hge)).2⟩

theorem not_versionLess_iff (a b : MVVersion V n) :
    ¬ versionLess a b = true ↔ sortKey b ≤ sortKey a := by
  rw [versionLess_iff, not_lt]

instance : Std.Total fun a b : MVVersion V n => ¬ versionLess a b = true where
  total a b := by
    rw [not_versionLess_iff, not_versionLess_iff]
    exact le_total _ _

instance : IsTrans (MVVersion V n) fun a b => ¬ versionLess a b = true where
  trans a b c hab hbc := by
    rw [not_versionLess_iff] at hab hbc ⊢
    exact hbc.trans hab

theorem canonicalize_eq (versions : List (MVVersion V n)) : canonicalize versions =
    (versions.reverse.insertionSort fun a b => ¬ versionLess a b = true).reverse := by
  rw [canonicalize, foldl_eq_foldr_reverse]
  rfl

theorem canonicalize_perm (versions : List (MVVersion V n)) :
    (canonicalize versions).Perm versions := by
  rw [canonicalize_eq]
  exact (reverse_perm _).trans ((perm_insertionSort _ _).trans (reverse_perm _))

theorem canonicalize_sorted {versions : List (MVVersion V n)} (hnod : versions.Nodup) :
    (canonicalize versions).Pairwise fun a b => sortKey a < sortKey b := by
  have hsor : (canonicalize versions).Pairwise fun a b => sortKey a ≤ sortKey b := by
    rw [canonicalize_eq, pairwise_reverse]
    apply (pairwise_insertionSort _ _).imp
    exact fun h => (not_versionLess_iff _ _).mp h
  have hdis : (canonicalize versions).Pairwise fun a b => a ≠ b :=
    (canonicalize_perm versions).nodup_iff.mpr hnod
  apply (hsor.and hdis).imp
  exact fun h => lt_of_le_of_ne h.1 fun hkey => h.2 (sortKey_injective hkey)

/-! ### One version is inserted -/

def versions (state : List (MVVersion V n)) : Set (MVVersion V n) := {v | v ∈ state}

/-- A state in canonical form: none of its versions happened before another one. -/
structure Canonical (maxVersions : Nat) (state : List (MVVersion V n)) : Prop where
  sorted : state.Pairwise fun a b => sortKey a < sortKey b
  antichain : ∀ a ∈ versions state, ∀ b ∈ versions state, ¬ Before a b
  bound : state.length ≤ maxVersions

variable {maxVersions : Nat} {state other : List (MVVersion V n)} {incoming : MVVersion V n}

theorem Canonical.nodup (h : Canonical maxVersions state) : state.Nodup := by
  apply h.sorted.imp
  exact fun hlt heq => hlt.ne (congrArg sortKey heq)

omit [LinearOrder V] in
theorem finite_versions (state : List (MVVersion V n)) : (versions state).Finite :=
  finite_toSet state

theorem versions_eq_toFinset (state : List (MVVersion V n)) : versions state = ↑state.toFinset := by
  simp [versions]

theorem ncard_versions (hnod : state.Nodup) : (versions state).ncard = state.length := by
  rw [versions_eq_toFinset, ncard_coe_finset, toFinset_card_of_nodup hnod]

/-- The scan stops at a version that is the incoming one or that it happened before, and otherwise
keeps those that did not happen before it. -/
theorem keepVersions_cases (incoming : MVVersion V n) (state : List (MVVersion V n)) :
    (keepVersions incoming state = none ∧
      ∃ existing ∈ state, existing = incoming ∨ Before incoming existing) ∨
    (keepVersions incoming state =
        some (state.filter fun existing => !existing.clock.happensBefore incoming.clock) ∧
      ∀ existing ∈ state, existing ≠ incoming ∧ ¬ Before incoming existing) := by
  induction state with
  | nil => exact .inr ⟨rfl, fun existing hmem => absurd hmem not_mem_nil⟩
  | cons existing rest ih =>
    rw [keepVersions]
    by_cases hsame : existing = incoming
    · exact .inl ⟨if_pos hsame, existing, mem_cons_self, .inl hsame⟩
    rw [if_neg hsame]
    by_cases hbef : incoming.clock.happensBefore existing.clock = true
    · exact .inl ⟨if_pos hbef, existing, mem_cons_self, .inr hbef⟩
    rw [if_neg hbef]
    rcases ih with ⟨hnone, found, hfound, hcase⟩ | ⟨hsome, hrest⟩
    · refine .inl ⟨?_, found, mem_cons_of_mem _ hfound, hcase⟩
      rw [hnone, Option.map_none, ite_self]
    · refine .inr ⟨?_, forall_mem_cons.mpr ⟨⟨hsame, hbef⟩, hrest⟩⟩
      rw [hsome, filter_cons]
      cases existing.clock.happensBefore incoming.clock <;> rfl

omit [LinearOrder V] in
theorem versions_cons (v : MVVersion V n) (rest : List (MVVersion V n)) :
    versions (v :: rest) = insert v (versions rest) := by
  ext w
  simp [versions]

/-- What an operation that may be refused leaves: a canonical state, with the given versions if it
is accepted, and it is if they fit. -/
structure Leaves (maxVersions : Nat) (result : List (MVVersion V n) × Bool) (fits : Prop)
    (held : Set (MVVersion V n)) : Prop where
  canonical : Canonical maxVersions result.1
  accepted_iff : result.2 = true ↔ fits
  versions_eq : result.2 = true → versions result.1 = held

section Leaves

variable {fits : Prop} {held : Set (MVVersion V n)}

theorem Canonical.accepted (h : Canonical maxVersions state) (hfits : fits)
    (hver : versions state = held) : Leaves maxVersions (state, true) fits held :=
  ⟨h, iff_of_true rfl hfits, fun _ => hver⟩

theorem Canonical.refused (h : Canonical maxVersions state) (hfits : ¬ fits) :
    Leaves maxVersions (state, false) fits held :=
  ⟨h, iff_of_false Bool.false_ne_true hfits, fun hfal => absurd hfal Bool.false_ne_true⟩

end Leaves

theorem Canonical.topmost_insert_known (h : Canonical maxVersions state)
    {existing : MVVersion V n} (hmem : existing ∈ state)
    (hcase : existing = incoming ∨ Before incoming existing) :
    topmost Before (insert incoming (versions state)) = versions state := by
  have hmem' : existing ∈ versions state := hmem
  rcases hcase with rfl | hbef
  · rw [insert_eq_of_mem hmem', topmost_eq_self Before h.antichain]
  · rw [topmost_insert_below Before hmem' hbef, topmost_eq_self Before h.antichain]

theorem Canonical.topmost_insert_new (h : Canonical maxVersions state)
    (hnew : ∀ existing ∈ state, ¬ Before incoming existing) :
    topmost Before (insert incoming (versions state)) = versions
      (state.filter (fun existing => !existing.clock.happensBefore incoming.clock) ++
        [incoming]) := by
  rw [topmost_insert Before h.antichain hnew (irrefl incoming)]
  ext v
  simp [versions, Before, or_comm]

/-- **One version**: it is accepted exactly if the topmost versions fit, and then these are
what the state holds. -/
theorem Canonical.inserts (h : Canonical maxVersions state) (incoming : MVVersion V n) :
    Leaves maxVersions (insertVersionInto maxVersions state incoming)
      ((topmost Before (insert incoming (versions state))).ncard ≤ maxVersions)
      (topmost Before (insert incoming (versions state))) := by
  rw [insertVersionInto, if_neg (not_lt.mpr h.bound)]
  rcases keepVersions_cases incoming state with ⟨hkeep, existing, hmem, hcase⟩ | ⟨hkeep, hnew⟩
  · rw [hkeep, h.topmost_insert_known hmem hcase, ncard_versions h.nodup]
    exact h.accepted h.bound rfl
  · rw [hkeep]
    have htop := h.topmost_insert_new fun existing hmem => (hnew existing hmem).2
    set kept := state.filter fun existing => !existing.clock.happensBefore incoming.clock
    have hnod : (kept ++ [incoming]).Nodup := by
      rw [nodup_append]
      refine ⟨h.nodup.filter _, nodup_singleton _, ?_⟩
      intro v hv w hw
      rw [mem_singleton.mp hw]
      exact (hnew v (mem_of_mem_filter hv)).1
    have hperm := canonicalize_perm (kept ++ [incoming])
    have hlen : (canonicalize (kept ++ [incoming])).length = kept.length + 1 := by
      rw [hperm.length_eq, length_append, length_singleton]
    have hver : versions (canonicalize (kept ++ [incoming])) =
        topmost Before (insert incoming (versions state)) := by
      rw [htop]
      ext v
      exact hperm.mem_iff
    rw [← hver, ncard_versions (hperm.nodup_iff.mpr hnod)]
    dsimp only
    by_cases hfull : maxVersions ≤ kept.length
    · rw [if_pos hfull]
      exact h.refused (by omega)
    · rw [if_neg hfull]
      refine Canonical.accepted ⟨canonicalize_sorted hnod, ?_, ?_⟩ (by omega) rfl
      · rw [hver]
        exact fun a ha b hb => topmost_antichain Before ha hb
      · omega

/-! ### Merges -/

/-- Every first part of the other state leaves no more topmost versions than there are
slots. -/
def Fits (maxVersions : Nat) (state other : List (MVVersion V n)) : Prop :=
  ∀ k ≤ other.length,
    (topmost Before (versions state ∪ versions (other.take k))).ncard ≤ maxVersions

omit [LinearOrder V] in
theorem versions_nil : versions ([] : List (MVVersion V n)) = ∅ := by
  ext v
  simp [versions]

theorem fits_cons_iff (h : Canonical maxVersions state) {v : MVVersion V n}
    {rest state' : List (MVVersion V n)}
    (hver : versions state' = topmost Before (insert v (versions state))) :
    Fits maxVersions state (v :: rest) ↔ Fits maxVersions state' rest := by
  have hmove : ∀ k, topmost Before (versions state' ∪ versions (rest.take k)) =
      topmost Before (versions state ∪ versions ((v :: rest).take (k + 1))) := by
    intro k
    rw [hver, topmost_union_left Before ((finite_versions state).insert v),
      take_succ_cons, versions_cons, insert_union, union_insert]
  constructor
  · intro hfits k hk
    rw [hmove]
    exact hfits (k + 1) (Nat.succ_le_succ hk)
  · intro hfits k hk
    cases k with
    | zero =>
      rw [take_zero, versions_nil, union_empty, topmost_eq_self Before h.antichain,
        ncard_versions h.nodup]
      exact h.bound
    | succ k =>
      rw [← hmove]
      exact hfits k (Nat.le_of_succ_le_succ hk)

theorem Canonical.insertsAll (h : Canonical maxVersions state) (others : List (MVVersion V n)) :
    Leaves maxVersions (insertAll maxVersions state others) (Fits maxVersions state others)
      (topmost Before (versions state ∪ versions others)) := by
  induction others generalizing state with
  | nil =>
    have htop : topmost Before (versions state ∪ versions []) = versions state := by
      rw [versions_nil, union_empty, topmost_eq_self Before h.antichain]
    refine h.accepted ?_ htop.symm
    intro k _
    rw [take_nil, htop, ncard_versions h.nodup]
    exact h.bound
  | cons v rest ih =>
    obtain ⟨hcan, hacc, hver⟩ := h.inserts v
    rw [insertAll]
    rcases hstep : insertVersionInto maxVersions state v with ⟨state', ok⟩
    rw [hstep] at hcan hacc hver
    cases ok with
    | false =>
      apply hcan.refused
      intro hfits
      have hfir := hfits 1 (Nat.succ_le_succ zero_le)
      rw [take_succ_cons, take_zero, versions_cons, versions_nil, union_insert,
        union_empty] at hfir
      exact absurd (hacc.mpr hfir) Bool.false_ne_true
    | true =>
      have hmove : topmost Before (versions state ∪ versions (v :: rest)) =
          topmost Before (versions state' ∪ versions rest) := by
        rw [hver rfl, topmost_union_left Before ((finite_versions state).insert v), versions_cons,
          insert_union, union_insert]
      rw [fits_cons_iff h (hver rfl), hmove]
      exact ih hcan

/-- **A merge is accepted exactly if it fits all the way**, and then it holds the topmost
versions of the two sides. -/
theorem Canonical.merges (h : Canonical maxVersions state) (other : List (MVVersion V n)) :
    Leaves maxVersions (merge maxVersions state other)
      (other.length ≤ maxVersions ∧ Fits maxVersions state other)
      (topmost Before (versions state ∪ versions other)) := by
  rw [merge]
  by_cases hlar : maxVersions < other.length
  · rw [if_pos hlar]
    exact h.refused fun hfits => absurd hfits.1 (not_le.mpr hlar)
  · obtain ⟨hcan, hacc, hver⟩ := h.insertsAll other
    rw [if_neg hlar]
    rcases hall : insertAll maxVersions state other with ⟨staged, ok⟩
    rw [hall] at hcan hacc hver
    cases ok with
    | false => exact h.refused fun hfits => Bool.false_ne_true (hacc.mpr hfits.2)
    | true => exact hcan.accepted ⟨not_lt.mp hlar, hacc.mp rfl⟩ (hver rfl)

theorem MVReachable.canonical (h : MVReachable maxVersions state) :
    Canonical maxVersions state := by
  induction h with
  | empty =>
    refine ⟨List.Pairwise.nil, ?_, zero_le⟩
    intro a ha
    exact absurd ha not_mem_nil
  | assign version _ ih => exact (ih.inserts version).canonical
  | merge _ _ ihs _ => exact (ihs.merges _).canonical
  | gossip other _ ih => exact (ih.merges other).canonical

/-- The two merges of two states succeed with one state, which holds the topmost versions
of both, each once. -/
def Joins (maxVersions : Nat) (a b : List (MVVersion V n)) : Prop :=
  (merge maxVersions a b).2 = true ∧ (merge maxVersions b a).2 = true ∧
    (merge maxVersions a b).1 = (merge maxVersions b a).1 ∧
    (merge maxVersions a b).1.Nodup ∧
    versions (merge maxVersions a b).1 = topmost Before (versions a ∪ versions b)

variable {a b : List (MVVersion V n)}

end MVRegister

end Crucible
