import Mathlib.Data.Finset.Card

/-! # Open addressing without deletion

A table of `cap` cells where a key `k` is looked for at `pos k 0`, `pos k 1`, …
until a cell holds `k` or holds no key.  Cells are never emptied, so a key stays
findable: every cell before it in its probe sequence holds some other key
(`Probed`).  The probe sequence is arbitrary as long as its first `cap` positions
reach every cell.  A search ends without a cell exactly when the table is full of other keys.
-/
namespace Crucible
open Function Finset
namespace OpenAddressing

variable {κ σ : Type} [DecidableEq κ] (keyOf : σ → Option κ) (pos : κ → Nat → Nat) (cap : Nat)

/-- The outcome of a search: a cell that holds the key, the empty cell where it
would go, or neither. -/
inductive Probe where
  | hit (cell : Nat)
  | free (cell : Nat)
  | full
deriving DecidableEq

variable (table : Nat → σ)

/-- The search loop from probe `i` on, with `n` probes left. -/
def search (k : κ) : Nat → Nat → Probe
  | _, 0 => .full
  | i, n + 1 =>
    match keyOf (table (pos k i)) with
    | none => .free (pos k i)
    | some k' => if k' = k then .hit (pos k i) else search k (i + 1) n

def find (k : κ) : Probe := search keyOf pos table k 0 cap

/-- The first `i` probes for `k` meet other keys only. -/
def Passed (k : κ) (i : Nat) : Prop :=
  ∀ j, j < i → ∃ k', keyOf (table (pos k j)) = some k' ∧ k' ≠ k

def Holds (c : Nat) (k : κ) : Prop := c < cap ∧ keyOf (table c) = some k

/-- Every key is findable from the start of its probe sequence. -/
def Probed : Prop :=
  ∀ c k, Holds keyOf cap table c k → ∃ i, i < cap ∧ pos k i = c ∧ Passed keyOf pos table k i

/-- The first `cap` probes for a key reach every cell and no other. -/
structure FullCycle : Prop where
  lt : ∀ k i, pos k i < cap
  reach : ∀ k c, c < cap → ∃ i, i < cap ∧ pos k i = c

variable {keyOf pos cap table} {k : κ} {c : Nat}

theorem search_cases (i n : Nat) (hpas : Passed keyOf pos table k i) :
    (∃ j, i ≤ j ∧ j < i + n ∧ Passed keyOf pos table k j ∧
      keyOf (table (pos k j)) = some k ∧ search keyOf pos table k i n = .hit (pos k j)) ∨
    (∃ j, i ≤ j ∧ j < i + n ∧ Passed keyOf pos table k j ∧
      keyOf (table (pos k j)) = none ∧ search keyOf pos table k i n = .free (pos k j)) ∨
    (Passed keyOf pos table k (i + n) ∧ search keyOf pos table k i n = .full) := by
  induction n generalizing i with
  | zero => exact .inr (.inr ⟨hpas, rfl⟩)
  | succ n ih =>
    unfold search
    cases hkey : keyOf (table (pos k i)) with
    | none =>
      exact .inr (.inl ⟨i, le_rfl, by omega, hpas, hkey, rfl⟩)
    | some k' =>
      by_cases hk : k' = k
      · subst hk
        exact .inl ⟨i, le_rfl, by omega, hpas, hkey, by simp⟩
      · have hnext : Passed keyOf pos table k (i + 1) := by
          intro j hj
          rcases Nat.lt_succ_iff_lt_or_eq.mp hj with hlt | rfl
          · exact hpas j hlt
          · exact ⟨k', hkey, hk⟩
        simp only [if_neg hk]
        rcases ih (i + 1) hnext with ⟨j, h1, h2, h3⟩ | ⟨j, h1, h2, h3⟩ | ⟨h1, h2⟩
        · exact .inl ⟨j, by omega, by omega, h3⟩
        · exact .inr (.inl ⟨j, by omega, by omega, h3⟩)
        · exact .inr (.inr ⟨by rwa [Nat.add_assoc, Nat.add_comm 1 n] at h1, h2⟩)

theorem search_congr {keyOf' : σ → Option κ} (h : ∀ c, keyOf' (table c) = keyOf (table c))
    (i n : Nat) : search keyOf' pos table k i n = search keyOf pos table k i n := by
  induction n generalizing i with
  | zero => rfl
  | succ n ih => rw [search, search, h, ih]

/-- **What a search returns.** -/
theorem find_cases (table : Nat → σ) (k : κ) (hpos : FullCycle pos cap) :
    (∃ c, find keyOf pos cap table k = .hit c ∧ Holds keyOf cap table c k) ∨
    (∃ i, i < cap ∧ find keyOf pos cap table k = .free (pos k i) ∧
      keyOf (table (pos k i)) = none ∧ Passed keyOf pos table k i) ∨
    (find keyOf pos cap table k = .full ∧
      ∀ c, c < cap → ∃ k', keyOf (table c) = some k' ∧ k' ≠ k) := by
  have hstart : Passed keyOf pos table k 0 := fun _ h => absurd h (Nat.not_lt_zero _)
  rcases search_cases 0 cap hstart with
    ⟨j, -, -, -, hkey, heq⟩ | ⟨j, -, hj, hpas, hkey, heq⟩ | ⟨hpas, heq⟩
  · exact .inl ⟨pos k j, heq, hpos.lt k j, hkey⟩
  · exact .inr (.inl ⟨j, by omega, heq, hkey, hpas⟩)
  · refine .inr (.inr ⟨heq, fun c hc => ?_⟩)
    obtain ⟨i, hi, rfl⟩ := hpos.reach k c hc
    exact hpas i (by omega)

section
omit [DecidableEq κ]

theorem Probed.absent_of_free (h : Probed keyOf pos cap table) {i : Nat}
    (hnone : keyOf (table (pos k i)) = none) (hpas : Passed keyOf pos table k i) (c : Nat) :
    ¬ Holds keyOf cap table c k := by
  intro hc
  obtain ⟨j, -, rfl, hj⟩ := h c k hc
  rcases lt_trichotomy i j with hlt | rfl | hlt
  · obtain ⟨k', hk', -⟩ := hj i hlt
    rw [hnone] at hk'
    cases hk'
  · rw [hc.2] at hnone
    cases hnone
  · obtain ⟨k', hk', hne⟩ := hpas j hlt
    exact hne (Option.some.inj (hk'.symm.trans hc.2))

theorem Probed.unique (h : Probed keyOf pos cap table) {c' : Nat}
    (hc : Holds keyOf cap table c k) (hc' : Holds keyOf cap table c' k) : c = c' := by
  obtain ⟨i, -, rfl, hi⟩ := h c k hc
  obtain ⟨j, -, rfl, hj⟩ := h c' k hc'
  rcases lt_trichotomy i j with hlt | rfl | hlt
  · obtain ⟨k', hk', hne⟩ := hj i hlt
    exact absurd (Option.some.inj (hk'.symm.trans hc.2)) hne
  · rfl
  · obtain ⟨k', hk', hne⟩ := hi j hlt
    exact absurd (Option.some.inj (hk'.symm.trans hc'.2)) hne

/-- A write that leaves every other key's cells alone keeps the table probed: the
cell held the same key before, or it was the empty cell that ended the search. -/
theorem Probed.store (h : Probed keyOf pos cap table) {i : Nat} {s : σ} (hi : i < cap)
    (hpas : Passed keyOf pos table k i)
    (hcell : keyOf (table (pos k i)) = none ∨ keyOf (table (pos k i)) = some k)
    (hs : keyOf s = some k) : Probed keyOf pos cap (update table (pos k i) s) := by
  -- a cell that a probe for `k'` passed still holds another key than `k'`
  have hkeep : ∀ k' j, Passed keyOf pos table k' j →
      Passed keyOf pos (update table (pos k i) s) k' j := by
    intro k' j hj l hl
    obtain ⟨k'', hk'', hne⟩ := hj l hl
    by_cases hsame : pos k' l = pos k i
    · rw [hsame] at hk'' ⊢
      rcases hcell with hnone | hsome
      · rw [hnone] at hk''
        cases hk''
      · exact ⟨k, by rw [update_self, hs],
          fun heq => hne (heq ▸ Option.some.inj (hk''.symm.trans hsome))⟩
    · exact ⟨k'', by rwa [update_of_ne hsame], hne⟩
  rintro c k' ⟨hc, hkey⟩
  by_cases hsame : c = pos k i
  · subst hsame
    rw [update_self, hs] at hkey
    cases hkey
    exact ⟨i, hi, rfl, hkeep k i hpas⟩
  · rw [update_of_ne hsame] at hkey
    obtain ⟨j, hj, hpos, hpass⟩ := h c k' ⟨hc, hkey⟩
    exact ⟨j, hj, hpos, hkeep k' j hpass⟩

def occupied (keyOf : σ → Option κ) (cap : Nat) (table : Nat → σ) : Finset Nat :=
  (Finset.range cap).filter fun c => (keyOf (table c)).isSome

theorem mem_occupied : c ∈ occupied keyOf cap table ↔ ∃ k, Holds keyOf cap table c k := by
  simp [occupied, Holds, Option.isSome_iff_exists]

theorem holds_update (table : Nat → σ) {s : σ} (c' : Nat) (k' : κ) (hc : c < cap)
    (hs : keyOf s = some k) :
    Holds keyOf cap (update table c s) c' k' ↔
      (c' = c ∧ k' = k) ∨ (c' ≠ c ∧ Holds keyOf cap table c' k') := by
  by_cases hsame : c' = c
  · subst hsame
    simp [Holds, hs, hc, eq_comm]
  · simp [Holds, hsame]

end

/-! ### The map that a table represents -/

/-- A map with at most a given number of keys, kept in the order in which they came. -/
structure BoundedMap (κ ν : Type) where
  keys : List κ
  val : κ → ν

namespace BoundedMap
variable {ν : Type}

def get? (m : BoundedMap κ ν) (k : κ) : Option ν := if k ∈ m.keys then some (m.val k) else none

/-- Set the value of a key.  A new key is dropped when the map is full. -/
def put (cap : Nat) (m : BoundedMap κ ν) (k : κ) (v : ν) : BoundedMap κ ν :=
  if k ∈ m.keys then { m with val := update m.val k v }
  else if m.keys.length < cap then
    { keys := m.keys ++ [k], val := update m.val k v }
  else m

/-- The keys after one more key came, while there is room. -/
def addKey (cap : Nat) (keys : List κ) (k : κ) : List κ :=
  if k ∈ keys then keys else if keys.length < cap then keys ++ [k] else keys

@[simp] theorem put_keys (cap : Nat) (m : BoundedMap κ ν) (k : κ) (v : ν) :
    (m.put cap k v).keys = addKey cap m.keys k := by
  unfold put addKey
  split
  · rfl
  · split <;> rfl

theorem mem_addKey {cap : Nat} {keys : List κ} {k' : κ} :
    k' ∈ addKey cap keys k ↔ k' ∈ keys ∨ (k' = k ∧ keys.length < cap) := by
  unfold addKey
  by_cases hk : k ∈ keys
  · rw [if_pos hk]
    exact ⟨Or.inl, fun h => h.elim id fun h => h.1 ▸ hk⟩
  · rw [if_neg hk]
    by_cases hroom : keys.length < cap
    · simp [hroom]
    · simp [hroom]

theorem addKey_full {cap : Nat} {keys : List κ} (k : κ) (h : cap ≤ keys.length) :
    addKey cap keys k = keys := by
  unfold addKey
  split
  · rfl
  · rw [if_neg h.not_gt]

theorem put_val {cap : Nat} {m : BoundedMap κ ν} {k' : κ} {v : ν} (h : k' ∈ (m.put cap k v).keys) :
    (m.put cap k v).val k' = if k' = k then v else m.val k' := by
  rw [put_keys, mem_addKey] at h
  unfold put
  by_cases hk : k ∈ m.keys
  · simp only [if_pos hk, update_apply]
  · simp only [if_neg hk]
    by_cases hroom : m.keys.length < cap
    · simp only [if_pos hroom, update_apply]
    · have hne : k' ≠ k := by
        rintro rfl
        exact h.elim hk fun h => hroom h.2
      simp only [if_neg hroom, if_neg hne]

end BoundedMap
open BoundedMap

variable {ν : Type} (payload : σ → ν) {m : BoundedMap κ ν}

/-- The table holds the keys and the values of the map, and nothing else. -/
structure Represents (keyOf : σ → Option κ) (pos : κ → Nat → Nat) (cap : Nat) (payload : σ → ν)
    (table : Nat → σ) (m : BoundedMap κ ν) : Prop where
  probed : Probed keyOf pos cap table
  nodup : m.keys.Nodup
  mem_iff : ∀ k, k ∈ m.keys ↔ ∃ c, Holds keyOf cap table c k
  val_eq : ∀ c k, Holds keyOf cap table c k → payload (table c) = m.val k
  length_eq : m.keys.length = (occupied keyOf cap table).card

namespace Represents
variable {payload}

section
omit [DecidableEq κ]

theorem empty (val : κ → ν) (hnone : ∀ c, c < cap → keyOf (table c) = none) :
    Represents keyOf pos cap payload table ⟨[], val⟩ := by
  have hno : ∀ c k, ¬ Holds keyOf cap table c k := by
    rintro c k ⟨hc, hk⟩
    rw [hnone c hc] at hk
    cases hk
  refine ⟨fun c k hc => absurd hc (hno c k), List.nodup_nil, fun k => ?_,
    fun c k hc => absurd hc (hno c k), ?_⟩
  · exact ⟨fun hk => absurd hk List.not_mem_nil, fun ⟨c, hc⟩ => absurd hc (hno c k)⟩
  · have : occupied keyOf cap table = ∅ := by
      refine eq_empty_of_forall_notMem fun c hc => ?_
      obtain ⟨k, hk⟩ := mem_occupied.mp hc
      exact hno c k hk
    rw [this]
    rfl

variable (h : Represents keyOf pos cap payload table m)
include h

theorem length_le : m.keys.length ≤ cap := by
  rw [h.length_eq]
  exact (card_filter_le _ _).trans (card_range cap).le

theorem length_lt_of_free (hc : c < cap) (hnone : keyOf (table c) = none) : m.keys.length < cap := by
  refine h.length_eq.trans_lt ((card_lt_card ?_).trans_eq (card_range cap))
  refine ⟨filter_subset _ _, fun hsub => ?_⟩
  obtain ⟨k', -, hk'⟩ := mem_occupied.mp (hsub (mem_range.mpr hc))
  rw [hnone] at hk'
  cases hk'

theorem agree {m' : BoundedMap κ ν} (h' : Represents keyOf pos cap payload table m')
    (hk : k ∈ m.keys) : k ∈ m'.keys ∧ m'.val k = m.val k := by
  obtain ⟨c, hc⟩ := (h.mem_iff k).mp hk
  exact ⟨(h'.mem_iff k).mpr ⟨c, hc⟩, (h'.val_eq c k hc).symm.trans (h.val_eq c k hc)⟩

theorem congr {keyOf' : σ → Option κ} {m' : BoundedMap κ ν}
    (hkey : ∀ c, keyOf' (table c) = keyOf (table c)) (hkeys : m'.keys.Perm m.keys)
    (hval : ∀ k ∈ m.keys, m'.val k = m.val k) : Represents keyOf' pos cap payload table m' := by
  have hhol : ∀ c k, Holds keyOf' cap table c k ↔ Holds keyOf cap table c k := fun c k => by
    rw [Holds, Holds, hkey]
  refine ⟨fun c k hc => ?_, hkeys.nodup_iff.mpr h.nodup, fun k => ?_, fun c k hc => ?_, ?_⟩
  · obtain ⟨i, hi, hpos, hpas⟩ := h.probed c k ((hhol c k).mp hc)
    refine ⟨i, hi, hpos, fun j hj => ?_⟩
    rw [hkey]
    exact hpas j hj
  · simp only [hkeys.mem_iff, h.mem_iff, hhol]
  · have hold := (hhol c k).mp hc
    rw [h.val_eq c k hold, hval k ((h.mem_iff k).mpr ⟨c, hold⟩)]
  · have hcel : occupied keyOf' cap table = occupied keyOf cap table := by
      ext c
      simp only [mem_occupied, hhol]
    rw [hkeys.length_eq, h.length_eq, hcel]

end

variable (h : Represents keyOf pos cap payload table m)
include h

/-- **A search in the table is a search in the map.** -/
theorem find_cases (hpos : FullCycle pos cap) (k : κ) :
    (∃ c, find keyOf pos cap table k = .hit c ∧ k ∈ m.keys ∧ keyOf (table c) = some k ∧
      payload (table c) = m.val k) ∨
    (∃ c, find keyOf pos cap table k = .free c ∧ k ∉ m.keys ∧ m.keys.length < cap) ∨
    (find keyOf pos cap table k = .full ∧ k ∉ m.keys ∧ m.keys.length = cap) := by
  rcases OpenAddressing.find_cases table k hpos with
    ⟨c, heq, hc⟩ | ⟨i, hi, heq, hnone, hpas⟩ | ⟨heq, hall⟩
  · exact .inl ⟨c, heq, (h.mem_iff k).mpr ⟨c, hc⟩, hc.2, h.val_eq c k hc⟩
  · refine .inr (.inl ⟨_, heq, ?_, ?_⟩)
    · rw [h.mem_iff]
      rintro ⟨c, hc⟩
      exact h.probed.absent_of_free hnone hpas c hc
    · exact h.length_lt_of_free (hpos.lt k i) hnone
  · refine .inr (.inr ⟨heq, ?_, ?_⟩)
    · rw [h.mem_iff]
      rintro ⟨c, hc, hk⟩
      obtain ⟨k', hk', hne⟩ := hall c hc
      exact hne (Option.some.inj (hk'.symm.trans hk))
    · have hfull : occupied keyOf cap table = range cap := by
        refine filter_true_of_mem fun c hc => ?_
        obtain ⟨k', hk', -⟩ := hall c (mem_range.mp hc)
        rw [hk']
        rfl
      rw [h.length_eq, hfull, card_range]

theorem store {i : Nat} {s : σ} (hi : i < cap)
    (hlt : pos k i < cap) (hpas : Passed keyOf pos table k i)
    (hcell : keyOf (table (pos k i)) = none ∨ keyOf (table (pos k i)) = some k)
    (hs : keyOf s = some k) :
    Represents keyOf pos cap payload (update table (pos k i) s)
      (m.put cap k (payload s)) := by
  have hhol := fun c' k' => holds_update table c' k' hlt hs
  have honly : ∀ c', Holds keyOf cap table c' k → c' = pos k i := fun c' hc' =>
    hcell.elim (fun hnone => absurd hc' (h.probed.absent_of_free hnone hpas c'))
      fun hsome => h.probed.unique hc' ⟨hlt, hsome⟩
  have hkeys : ∀ k', k' ∈ (m.put cap k (payload s)).keys ↔
      ∃ c', Holds keyOf cap (update table (pos k i) s) c' k' := by
    intro k'
    rw [put_keys, mem_addKey, h.mem_iff]
    constructor
    · rintro (⟨c', hc'⟩ | ⟨rfl, -⟩)
      · by_cases hsame : c' = pos k i
        · subst hsame
          have hsome := hcell.resolve_left (by simp [hc'.2])
          exact ⟨_, (hhol _ k').mpr (.inl ⟨rfl, Option.some.inj (hc'.2.symm.trans hsome)⟩)⟩
        · exact ⟨c', (hhol c' k').mpr (.inr ⟨hsame, hc'⟩)⟩
      · exact ⟨_, (hhol _ k').mpr (.inl ⟨rfl, rfl⟩)⟩
    · rintro ⟨c', hc'⟩
      rcases (hhol c' k').mp hc' with ⟨-, rfl⟩ | ⟨-, hold⟩
      · exact hcell.elim (fun hnone => .inr ⟨rfl, h.length_lt_of_free hlt hnone⟩)
          fun hsome => .inl ⟨_, hlt, hsome⟩
      · exact .inl ⟨c', hold⟩
  have hcel : occupied keyOf cap (update table (pos k i) s) =
      insert (pos k i) (occupied keyOf cap table) := by
    ext c'
    by_cases hsame : c' = pos k i
    · simpa [hsame, mem_occupied] using ⟨k, (hhol _ k).mpr (.inl ⟨rfl, rfl⟩)⟩
    · simp [mem_occupied, hhol, hsame]
  have hadd : (addKey cap m.keys k).Nodup ∧ (addKey cap m.keys k).length =
      (insert (pos k i) (occupied keyOf cap table)).card := by
    rcases hcell with hnone | hsome
    · have hnot : k ∉ m.keys := fun hk => by
        obtain ⟨c', hc'⟩ := (h.mem_iff k).mp hk
        exact h.probed.absent_of_free hnone hpas c' hc'
      have hnew : pos k i ∉ occupied keyOf cap table := by simp [occupied, hnone]
      rw [addKey, if_neg hnot, if_pos (h.length_lt_of_free hlt hnone),
        card_insert_of_notMem hnew, ← h.length_eq]
      simpa [List.nodup_append, h.nodup] using fun a ha (heq : a = k) => hnot (heq ▸ ha)
    · have hold : pos k i ∈ occupied keyOf cap table := mem_occupied.mpr ⟨k, hlt, hsome⟩
      rw [addKey, if_pos ((h.mem_iff k).mpr ⟨_, hlt, hsome⟩),
        insert_eq_of_mem hold]
      exact ⟨h.nodup, h.length_eq⟩
  rw [← hcel, ← put_keys cap m k (payload s)] at hadd
  refine ⟨h.probed.store hi hpas hcell hs, hadd.1, hkeys, fun c' k' hc' => ?_, hadd.2⟩
  rw [put_val ((hkeys k').mpr ⟨c', hc'⟩)]
  rcases (hhol c' k').mp hc' with ⟨rfl, rfl⟩ | ⟨hne, hold⟩
  · simp
  · rw [update_of_ne hne, h.val_eq c' k' hold, if_neg]
    rintro rfl
    exact hne (honly c' hold)

/-- **A write over the cell of a key is an update of the map.** -/
theorem store_hit {s : σ}
    (hc : Holds keyOf cap table c k) (hs : keyOf s = some k) :
    Represents keyOf pos cap payload (update table c s) (m.put cap k (payload s)) := by
  obtain ⟨i, hi, rfl, hpas⟩ := h.probed c k hc
  exact h.store hi hc.1 hpas (.inr hc.2) hs

/-- **A write at the empty cell that ended a search adds the key to the map.** -/
theorem store_free (hpos : FullCycle pos cap)
    {s : σ} (hfind : find keyOf pos cap table k = .free c) (hs : keyOf s = some k) :
    Represents keyOf pos cap payload (update table c s) (m.put cap k (payload s)) := by
  rcases OpenAddressing.find_cases table k hpos with
    ⟨c', heq, -⟩ | ⟨i, hi, heq, hnone, hpas⟩ | ⟨heq, -⟩
  · exact absurd (heq.symm.trans hfind) (by simp)
  · obtain rfl : pos k i = c := Probe.free.inj (heq.symm.trans hfind)
    exact h.store hi (hpos.lt k i) hpas (.inl hnone) hs
  · exact absurd (heq.symm.trans hfind) (by simp)

end Represents
end OpenAddressing
end Crucible
