import Crucible.OpenAddressing
import Mathlib.Order.Interval.Finset.Nat

/-! # Linear probing with deletion

A table of `cap` cells where the probe for a key walks forward from its home cell and
wraps around.  A table is probed when every cell between the home of a key and the cell that
holds it is in use.

A deletion moves later cells of the run back over the hole (Algorithm R of TAOCP,
section 6.4).  `Gap` is the invariant of its loop: the table with one cell that counts
as in use for every other key's run.
-/
namespace Crucible
open Function Finset
namespace OpenAddressing

variable {κ σ : Type} {keyOf : σ → Option κ} {home : κ → Nat} {cap : Nat} {table : Nat → σ}
  {k : κ} {s : σ}

/-- The cell of probe `i`. -/
def linear (home : κ → Nat) (cap : Nat) (k : κ) (i : Nat) : Nat := (home k + i) % cap

/-- The steps from `a` forward to `b`. -/
def ahead (cap a b : Nat) : Nat := if a ≤ b then b - a else b + cap - a

variable {a b c : Nat}

theorem ahead_lt (ha : a < cap) (hb : b < cap) : ahead cap a b < cap := by
  unfold ahead
  split <;> omega

theorem ahead_inj (ha : a < cap) (hb : b < cap) (hc : c < cap)
    (h : ahead cap a b = ahead cap a c) : b = c := by
  unfold ahead at h
  split at h <;> split at h <;> omega

theorem add_ahead (ha : a < cap) (hb : b < cap) : (a + ahead cap a b) % cap = b := by
  unfold ahead
  split
  · rw [Nat.add_sub_cancel' (by assumption), Nat.mod_eq_of_lt hb]
  · rw [Nat.add_sub_cancel' (by omega), Nat.add_mod_right, Nat.mod_eq_of_lt hb]

theorem succ_mod (ha : a < cap) : (a + 1) % cap = if a + 1 = cap then 0 else a + 1 := by
  split
  · rename_i heq
    rw [heq, Nat.mod_self]
  · exact Nat.mod_eq_of_lt (by omega)

theorem ahead_add {i : Nat} (ha : a < cap) (hi : i < cap) : ahead cap a ((a + i) % cap) = i := by
  refine (lt_or_ge (a + i) cap).elim (fun hlt => ?_) (fun hge => ?_)
  · rw [Nat.mod_eq_of_lt hlt, ahead, if_pos (by omega)]
    omega
  · rw [Nat.mod_eq_sub_mod hge, Nat.mod_eq_of_lt (by omega), ahead, if_neg (by omega)]
    omega

theorem linear_zero (hhome : home k < cap) : linear home cap k 0 = home k :=
  Nat.mod_eq_of_lt hhome

theorem linear_fullCycle (hhome : ∀ k, home k < cap) : FullCycle (linear home cap) cap where
  lt := fun k _ => Nat.mod_lt _ (Nat.zero_lt_of_lt (hhome k))
  reach := fun k c hc => ⟨ahead cap (home k) c, ahead_lt (hhome k) hc, add_ahead (hhome k) hc⟩

def Used (keyOf : σ → Option κ) (table : Nat → σ) (c : Nat) : Prop := keyOf (table c) ≠ none

theorem Probed.used (h : Probed keyOf (linear home cap) cap table) (hhome : ∀ k, home k < cap)
    {x : Nat} (hc : Holds keyOf cap table c k) (hx : x < cap)
    (hlt : ahead cap (home k) x < ahead cap (home k) c) : Used keyOf table x := by
  obtain ⟨i, hi, rfl, hpas⟩ := h c k hc
  rw [linear, ahead_add (hhome k) hi] at hlt
  obtain ⟨k', hk', -⟩ := hpas _ hlt
  rw [linear, add_ahead (hhome k) hx] at hk'
  rw [Used, hk']
  exact nofun

theorem probed_of_used (hhome : ∀ k, home k < cap)
    (huniq : ∀ c c' k, Holds keyOf cap table c k → Holds keyOf cap table c' k → c = c')
    (hused : ∀ c k x, Holds keyOf cap table c k → x < cap →
      ahead cap (home k) x < ahead cap (home k) c → Used keyOf table x) :
    Probed keyOf (linear home cap) cap table := by
  intro c k hc
  refine ⟨ahead cap (home k) c, ahead_lt (hhome k) hc.1, add_ahead (hhome k) hc.1,
    fun j hj => ?_⟩
  have hjcap : j < cap := hj.trans (ahead_lt (hhome k) hc.1)
  have hx : linear home cap k j < cap := Nat.mod_lt _ (Nat.zero_lt_of_lt hjcap)
  have hahead : ahead cap (home k) (linear home cap k j) = j := ahead_add (hhome k) hjcap
  obtain ⟨k', hk'⟩ := Option.ne_none_iff_exists'.mp (hused c k _ hc hx (hahead.trans_lt hj))
  refine ⟨k', hk', ?_⟩
  rintro rfl
  have heq := huniq _ _ _ ⟨hx, hk'⟩ hc
  rw [← heq, hahead] at hj
  exact lt_irrefl _ hj

/-! ### What a table stores -/

/-- The table is probed, and the entries in its used cells are `entries`. -/
structure Stores (keyOf : σ → Option κ) (home : κ → Nat) (cap : Nat) (table : Nat → σ)
    (entries : Set σ) : Prop where
  probed : Probed keyOf (linear home cap) cap table
  mem_iff : ∀ s, s ∈ entries ↔ keyOf s ≠ none ∧ ∃ c, c < cap ∧ table c = s

theorem stores_empty (hnone : ∀ c, c < cap → keyOf (table c) = none) :
    Stores keyOf home cap table ∅ := by
  refine ⟨fun c k hc => ?_, fun s => ⟨nofun, ?_⟩⟩
  · have hk := hc.2
    rw [hnone c hc.1] at hk
    cases hk
  · rintro ⟨hs, c, hc, rfl⟩
    exact hs (hnone c hc)

namespace Stores
variable {entries : Set σ}

section
variable (h : Stores keyOf home cap table entries)
include h

theorem entry_unique {s' : σ} (hs : s ∈ entries)
    (hs' : s' ∈ entries) (hkey : keyOf s = keyOf s') : s = s' := by
  obtain ⟨hne, c, hc, rfl⟩ := (h.mem_iff s).mp hs
  obtain ⟨-, c', hc', rfl⟩ := (h.mem_iff s').mp hs'
  obtain ⟨k, hk⟩ := Option.ne_none_iff_exists'.mp hne
  rw [h.probed.unique ⟨hc, hk⟩ ⟨hc', hkey ▸ hk⟩]

/-- **A store** at the cell where the search for its key ended replaces the entry of that key. -/
theorem store {i : Nat} (hi : i < cap) (hpas : Passed keyOf (linear home cap) table k i)
    (hcell : keyOf (table (linear home cap k i)) = none ∨
      keyOf (table (linear home cap k i)) = some k) (hs : keyOf s = some k) :
    Stores keyOf home cap (update table (linear home cap k i) s)
      {e | e = s ∨ (e ∈ entries ∧ keyOf e ≠ some k)} := by
  have hcap : 0 < cap := Nat.zero_lt_of_lt hi
  refine ⟨h.probed.store hi hpas hcell hs, fun e => ?_⟩
  rw [Set.mem_ofPred_eq, h.mem_iff e]
  constructor
  · rintro (rfl | ⟨⟨hne, c, hc, rfl⟩, hkey⟩)
    · exact ⟨by rw [hs]; exact nofun, _, Nat.mod_lt _ hcap, update_self ..⟩
    · refine ⟨hne, c, hc, update_of_ne ?_ _ _⟩
      rintro rfl
      exact hcell.elim hne hkey
  · rintro ⟨hne, c, hc, rfl⟩
    by_cases hsame : c = linear home cap k i
    · rw [hsame, update_self]
      exact .inl rfl
    · rw [update_of_ne hsame] at hne ⊢
      refine .inr ⟨⟨hne, c, hc, rfl⟩, fun hkey => ?_⟩
      -- the key would be in a cell that its own search has not reached
      rcases hcell with hnone | hsome
      · exact h.probed.absent_of_free hnone hpas c ⟨hc, hkey⟩
      · exact hsame (h.probed.unique ⟨hc, hkey⟩ ⟨Nat.mod_lt _ hcap, hsome⟩)

theorem card_le {lo hi : Nat} (index : σ → Nat)
    (hind : ∀ s, s ∈ entries → lo ≤ index s ∧ index s < hi)
    (hinj : ∀ s s', s ∈ entries → s' ∈ entries → index s = index s' → s = s') :
    (occupied keyOf cap table).card ≤ hi - lo := by
  have hmem : ∀ c, c ∈ occupied keyOf cap table → c < cap ∧ table c ∈ entries := by
    intro c hc
    obtain ⟨k, hk⟩ := mem_occupied.mp hc
    exact ⟨hk.1, (h.mem_iff _).mpr ⟨by rw [hk.2]; exact nofun, c, hk.1, rfl⟩⟩
  -- the entries of different cells have different indexes
  have hcard : (occupied keyOf cap table).card ≤ (Ico lo hi).card := by
    refine card_le_card_of_injOn (fun c => index (table c)) ?_ ?_
    · intro c hc
      exact mem_Ico.mpr (hind _ (hmem c hc).2)
    · intro c hc c' hc' heq
      have hsame := hinj _ _ (hmem c hc).2 (hmem c' hc').2 heq
      obtain ⟨k, hk⟩ := mem_occupied.mp hc
      exact h.probed.unique hk ⟨(hmem c' hc').1, hsame ▸ hk.2⟩
  rwa [Nat.card_Ico] at hcard

end

theorem exists_unused (hroom : (occupied keyOf cap table).card < cap) :
    ∃ c, c < cap ∧ keyOf (table c) = none := by
  by_contra hfull
  have hall : occupied keyOf cap table = range cap := by
    refine filter_true_of_mem fun c hc => ?_
    rw [Option.isSome_iff_ne_none]
    exact fun hnone => hfull ⟨c, mem_range.mp hc, hnone⟩
  rw [hall, card_range] at hroom
  exact lt_irrefl _ hroom

theorem all_used (h : Stores keyOf home cap table entries) (entry : Nat → σ)
    (hent : ∀ i, i < cap → entry i ∈ entries)
    (hinj : ∀ i j, i < cap → j < cap → entry i = entry j → i = j) {c : Nat} (hc : c < cap) :
    keyOf (table c) ≠ none := by
  have hcell : ∀ i, ∃ c', i < cap → c' ∈ occupied keyOf cap table ∧ table c' = entry i := by
    intro i
    by_cases hi : i < cap
    · obtain ⟨hne, c', hc', heq⟩ := (h.mem_iff _).mp (hent i hi)
      obtain ⟨k, hk⟩ := Option.ne_none_iff_exists'.mp hne
      exact ⟨c', fun _ => ⟨mem_occupied.mpr ⟨k, hc', heq ▸ hk⟩, heq⟩⟩
    · exact ⟨0, fun hi' => absurd hi' hi⟩
  choose cell hcell using hcell
  have hcard : (range cap).card ≤ (occupied keyOf cap table).card := by
    refine card_le_card_of_injOn cell ?_ ?_
    · intro i hi
      exact (hcell i (mem_range.mp hi)).1
    · intro i hi j hj heq
      have hi := mem_range.mp hi
      have hj := mem_range.mp hj
      refine hinj i j hi hj ?_
      rw [← (hcell i hi).2, ← (hcell j hj).2, heq]
  have hall : occupied keyOf cap table = range cap :=
    eq_of_subset_of_card_le (filter_subset _ _) hcard
  have hmem := mem_range.mpr hc
  rw [← hall] at hmem
  obtain ⟨k, hk⟩ := mem_occupied.mp hmem
  rw [hk.2]
  exact nofun

end Stores

/-! ### Deletion -/

/-- The state of a deletion: the cell `hole` counts as in use, and the cells after it up
to `next` have their homes after it.  `kept` are the entries of the other cells. -/
structure Gap (keyOf : σ → Option κ) (home : κ → Nat) (cap : Nat) (kept : Set σ)
    (table : Nat → σ) (hole next : Nat) : Prop where
  hole_lt : hole < cap
  next_lt : next < cap
  unique : ∀ c c' k, c ≠ hole → c' ≠ hole → Holds keyOf cap table c k →
    Holds keyOf cap table c' k → c = c'
  used : ∀ c k x, c ≠ hole → Holds keyOf cap table c k → x < cap →
    ahead cap (home k) x < ahead cap (home k) c → x = hole ∨ Used keyOf table x
  run : ∀ x, x < cap → 0 < ahead cap hole x → ahead cap hole x ≤ ahead cap hole next →
    Used keyOf table x
  past : ∀ c k, Holds keyOf cap table c k → 0 < ahead cap hole c →
    ahead cap hole c ≤ ahead cap hole next →
    0 < ahead cap hole (home k) ∧ ahead cap hole (home k) ≤ ahead cap hole c
  mem_iff : ∀ s, s ∈ kept ↔ keyOf s ≠ none ∧ ∃ c, c < cap ∧ c ≠ hole ∧ table c = s

theorem ahead_self (cap a : Nat) : ahead cap a a = 0 := by
  rw [ahead, if_pos (Nat.le_refl a), Nat.sub_self]

theorem ahead_eq_zero (ha : a < cap) (h : ahead cap a b = 0) : b = a := by
  unfold ahead at h
  split at h <;> omega

theorem Stores.gap {entries : Set σ} (h : Stores keyOf home cap table entries)
    (hhome : ∀ k, home k < cap) {hole : Nat} (hhole : Holds keyOf cap table hole k) :
    Gap keyOf home cap {s | s ∈ entries ∧ keyOf s ≠ some k} table hole hole := by
  have hzero := ahead_self cap hole
  refine ⟨hhole.1, hhole.1, fun c c' k _ _ hc hc' => h.probed.unique hc hc',
    fun c k x _ hc hx hlt => .inr (h.probed.used hhome hc hx hlt), ?_, ?_, fun s => ?_⟩
  · omega
  · omega
  · rw [Set.mem_ofPred_eq, h.mem_iff s]
    constructor
    · rintro ⟨⟨hne, c, hc, rfl⟩, hkey⟩
      refine ⟨hne, c, hc, ?_, rfl⟩
      rintro rfl
      exact hkey hhole.2
    · rintro ⟨hne, c, hc, hch, rfl⟩
      exact ⟨⟨hne, c, hc, rfl⟩, fun hkey => hch (h.probed.unique ⟨hc, hkey⟩ hhole)⟩

namespace Gap
variable {kept : Set σ} {hole next : Nat}

variable (h : Gap keyOf home cap kept table hole next)
include h

theorem ahead_succ (hne : (next + 1) % cap ≠ hole) :
    ahead cap hole ((next + 1) % cap) = ahead cap hole next + 1 := by
  have hhole := h.hole_lt
  have hnext := h.next_lt
  rw [succ_mod hnext] at hne ⊢
  unfold ahead
  split at hne <;> split <;> split <;> split <;> omega

theorem succ_lt : (next + 1) % cap < cap :=
  Nat.mod_lt _ (Nat.zero_lt_of_lt h.hole_lt)

theorem pass (hne : (next + 1) % cap ≠ hole) (hk : keyOf (table ((next + 1) % cap)) = some k)
    (hpos : 0 < ahead cap hole (home k))
    (hle : ahead cap hole (home k) ≤ ahead cap hole ((next + 1) % cap)) :
    Gap keyOf home cap kept table hole ((next + 1) % cap) := by
  have hsucc := h.ahead_succ hne
  refine ⟨h.hole_lt, h.succ_lt, h.unique, h.used, fun x hx hxpos hxle => ?_,
    fun c k' hc hcpos hcle => ?_, h.mem_iff⟩
  · rw [hsucc] at hxle
    rcases Nat.le_succ_iff.mp hxle with hold | hnew
    · exact h.run x hx hxpos hold
    · rw [ahead_inj h.hole_lt hx h.succ_lt (hnew.trans hsucc.symm), Used, hk]
      exact nofun
  · rw [hsucc] at hcle
    rcases Nat.le_succ_iff.mp hcle with hold | hnew
    · exact h.past c k' hc hcpos hold
    · have heq := ahead_inj h.hole_lt hc.1 h.succ_lt (hnew.trans hsucc.symm)
      rw [heq] at hc ⊢
      cases hk.symm.trans hc.2
      exact ⟨hpos, hle⟩

/-- The cell after the run holds a key whose home is not after the hole, so it moves into
the hole and leaves the new hole. -/
theorem move (hhome : ∀ k, home k < cap)
    (hne : (next + 1) % cap ≠ hole) (hk : keyOf (table ((next + 1) % cap)) = some k)
    (hout : ahead cap hole (home k) = 0 ∨
      ahead cap hole ((next + 1) % cap) < ahead cap hole (home k)) :
    Gap keyOf home cap kept (update table hole (table ((next + 1) % cap)))
      ((next + 1) % cap) ((next + 1) % cap) := by
  have hlt := h.succ_lt
  generalize (next + 1) % cap = moved at hne hk hout hlt
  have hzero := ahead_self cap moved
  have hhole := h.hole_lt
  -- where a key of the new table was in the old one
  have hold : ∀ {c k'}, c ≠ moved → Holds keyOf cap (update table hole (table moved)) c k' →
      (c = hole ∧ k' = k) ∨ (c ≠ hole ∧ Holds keyOf cap table c k') := by
    rintro c k' hc ⟨hclt, hkey⟩
    by_cases hch : c = hole
    · rw [hch, update_self, hk] at hkey
      exact .inl ⟨hch, (Option.some.inj hkey).symm⟩
    · rw [update_of_ne hch] at hkey
      exact .inr ⟨hch, hclt, hkey⟩
  refine ⟨hlt, hlt, ?_, ?_, fun x _ hpos hle => ?_, fun c k' _ hpos hle => ?_, fun s => ?_⟩
  · intro c c' k' hc hc' hkey hkey'
    rcases hold hc hkey with ⟨hch, rfl⟩ | ⟨hch, hkey⟩ <;>
      rcases hold hc' hkey' with ⟨hch', hk'⟩ | ⟨hch', hkey'⟩
    · exact hch.trans hch'.symm
    · exact absurd (h.unique _ _ _ hch' hne hkey' ⟨hlt, hk⟩) hc'
    · exact absurd (h.unique _ _ _ hch hne (hk' ▸ hkey) ⟨hlt, hk⟩) hc
    · exact h.unique _ _ _ hch hch' hkey hkey'
  · intro c k' x hc hkey hx hahead
    by_cases hxm : x = moved
    · exact .inl hxm
    · refine .inr ?_
      by_cases hxh : x = hole
      · rw [hxh, Used, update_self, hk]
        exact nofun
      · rw [Used, update_of_ne hxh]
        rcases hold hc hkey with ⟨rfl, rfl⟩ | ⟨hch, hkey⟩
        · -- the run of the moved key reached past the hole
          refine (h.used moved k' x hne ⟨hlt, hk⟩ hx ?_).resolve_left hxh
          have hhom := hhome k'
          unfold ahead at hahead hout ⊢
          split_ifs at hahead hout ⊢ <;> omega
        · exact (h.used c k' x hch hkey hx hahead).resolve_left hxh
  · omega
  · omega
  · rw [h.mem_iff s]
    refine and_congr_right fun _ => ⟨?_, ?_⟩
    · rintro ⟨c, hc, hch, rfl⟩
      by_cases hcm : c = moved
      · exact ⟨hole, hhole, hne.symm, by rw [update_self, hcm]⟩
      · exact ⟨c, hc, hcm, update_of_ne hch _ _⟩
    · rintro ⟨c, hc, hcm, rfl⟩
      by_cases hch : c = hole
      · exact ⟨moved, hlt, hne, by rw [hch, update_self]⟩
      · exact ⟨c, hc, hch, (update_of_ne hch _ _).symm⟩

theorem finish (hhome : ∀ k, home k < cap)
    (hne : (next + 1) % cap ≠ hole) (hfree : keyOf (table ((next + 1) % cap)) = none)
    {blank : σ} (hblank : keyOf blank = none) :
    Stores keyOf home cap (update table hole blank) kept := by
  have hsucc := h.ahead_succ hne
  have hlt := h.succ_lt
  generalize (next + 1) % cap = free at hne hfree hsucc hlt
  have hhole := h.hole_lt
  have hold : ∀ {c k'}, Holds keyOf cap (update table hole blank) c k' →
      c ≠ hole ∧ Holds keyOf cap table c k' := by
    rintro c k' ⟨hclt, hkey⟩
    by_cases hch : c = hole
    · rw [hch, update_self, hblank] at hkey
      cases hkey
    · rw [update_of_ne hch] at hkey
      exact ⟨hch, hclt, hkey⟩
  refine ⟨probed_of_used hhome ?_ ?_, fun s => ?_⟩
  · intro c c' k' hc hc'
    exact h.unique _ _ _ (hold hc).1 (hold hc').1 (hold hc).2 (hold hc').2
  · intro c k' x hc hx hahead
    obtain ⟨hch, hkey⟩ := hold hc
    have hclt := hkey.1
    -- no run passes over the hole: past it the run would meet the unused cell
    have hnot : x ≠ hole := by
      rintro rfl
      rcases lt_or_ge (ahead cap x next) (ahead cap x c) with hfar | hnear
      · have hcf : ahead cap x free ≠ ahead cap x c := fun heq => by
          have hc := hkey.2
          rw [← ahead_inj hhole hlt hclt heq, hfree] at hc
          cases hc
        refine (h.used c k' free hch hkey hlt ?_).elim hne fun hused => hused hfree
        unfold ahead at hahead hfar hcf hsucc ⊢
        split_ifs at hahead hfar hcf hsucc ⊢ <;> omega
      · have hpos : 0 < ahead cap x c := Nat.pos_of_ne_zero fun heq =>
          hch (ahead_eq_zero hhole heq)
        have hpast := h.past c k' hkey hpos hnear
        unfold ahead at hahead hpast
        split_ifs at hahead hpast <;> omega
    rw [Used, update_of_ne hnot]
    exact (h.used c k' x hch hkey hx hahead).resolve_left hnot
  · rw [h.mem_iff s]
    refine and_congr_right fun hs => ⟨?_, ?_⟩
    · rintro ⟨c, hc, hch, rfl⟩
      exact ⟨c, hc, update_of_ne hch _ _⟩
    · rintro ⟨c, hc, rfl⟩
      have hch : c ≠ hole := by
        rintro rfl
        rw [update_self] at hs
        exact hs hblank
      exact ⟨c, hc, hch, (update_of_ne hch _ _).symm⟩

end Gap
end OpenAddressing
end Crucible
