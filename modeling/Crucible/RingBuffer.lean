import Crucible.Loops
import Mathlib.Data.Int.ModEq
import Mathlib.Data.Nat.Bitwise

/-! # Power-of-two rings

A ring of power-of-two capacity keeps the entry at index `p` of an endless sequence
in slot `p &&& mask`.  `Holds` says which stretch of the sequence the slots hold.
The rules say what a store at the end, a move of the start, a copy into another ring
and a block copy of a whole run do to that stretch.
-/
namespace Crucible
open List Function

/-- The mask of a power-of-two table. -/
def PowMask (mask : Nat) : Prop := ∃ k, mask + 1 = 2 ^ k

theorem and_powMask {mask : Nat} (h : PowMask mask) (x : Nat) : x &&& mask = x % (mask + 1) := by
  obtain ⟨k, hk⟩ := h
  have hmask : mask = 2 ^ k - 1 := by omega
  rw [hk, hmask, Nat.and_two_pow_sub_one_eq_mod]

namespace Ring
variable {α : Type} {mask : Nat} {slots : Nat → α} {seq : Nat → α} {lo hi : Nat}

variable {q i pos : Nat}

theorem slot_ne (hpow : PowMask mask) {p : Nat} (hlt : p < q) (hclose : q < p + (mask + 1)) :
    p &&& mask ≠ q &&& mask := by
  rw [and_powMask hpow, and_powMask hpow]
  intro heq
  have hdvd : mask + 1 ∣ q - p := (Nat.modEq_iff_dvd' hlt.le).mp heq
  exact absurd (Nat.le_of_dvd (by omega) hdvd) (by omega)

/-- The slots hold the entries of the sequence from `lo` up to `hi`. -/
def Holds (mask : Nat) (slots seq : Nat → α) (lo hi : Nat) : Prop :=
  ∀ p, lo ≤ p → p < hi → slots (p &&& mask) = seq p

theorem Holds.empty (mask : Nat) (slots seq : Nat → α) (hi : Nat) : Holds mask slots seq hi hi :=
  fun _ hlo hhi => absurd hlo hhi.not_ge

theorem Holds.mono (h : Holds mask slots seq lo hi) {lo' hi' : Nat} (hlo : lo ≤ lo')
    (hhi : hi' ≤ hi) : Holds mask slots seq lo' hi' :=
  fun p hp hp' => h p (hlo.trans hp) (hp'.trans_le hhi)

theorem Holds.congr (h : Holds mask slots seq lo hi) {seq' : Nat → α}
    (heq : ∀ p, lo ≤ p → p < hi → seq p = seq' p) : Holds mask slots seq' lo hi :=
  fun p hp hp' => (h p hp hp').trans (heq p hp hp')

/-- **A store at the end** of a ring with a free slot. -/
theorem Holds.store (hpow : PowMask mask) (h : Holds mask slots seq lo hi)
    (hroom : hi < lo + (mask + 1)) :
    Holds mask (update slots (hi &&& mask) (seq hi)) seq lo (hi + 1) := by
  intro p hp hp'
  by_cases heq : p = hi
  · rw [heq, update_self]
  · have hne : p &&& mask ≠ hi &&& mask := slot_ne hpow (by omega) (by omega)
    rw [update_of_ne hne]
    exact h p hp (by omega)

variable {xs : List α} {x d : α}

theorem Holds.push (hpow : PowMask mask) (h : Holds mask slots (fun p => xs.getD p d) lo xs.length)
    (hroom : xs.length < lo + (mask + 1)) :
    Holds mask (update slots (xs.length &&& mask) x) (fun p => (xs ++ [x]).getD p d) lo
      (xs.length + 1) := by
  have hold := h.congr fun p _ hp => (getD_append xs [x] d p hp).symm
  simpa using hold.store hpow hroom

/-- The entries from `lo` up to `hi`, copied into the slots of another ring. -/
def copy (mask mask' : Nat) (slots : Nat → α) (blank : α) (lo hi : Nat) : Nat → α :=
  (range (hi - lo)).foldl (fun new i =>
    update new ((lo + i) &&& mask') (slots ((lo + i) &&& mask))) fun _ => blank

/-- **A copy into a ring that is large enough** holds the same stretch. -/
theorem Holds.copy {mask' : Nat} (hpow : PowMask mask') (h : Holds mask slots seq lo hi)
    (hroom : hi ≤ lo + (mask' + 1)) (blank : α) :
    Holds mask' (Ring.copy mask mask' slots blank lo hi) seq lo hi := by
  have hall : Holds mask' (Ring.copy mask mask' slots blank lo hi) seq lo (lo + (hi - lo)) := by
    refine foldl_range_inv (fun n new => Holds mask' new seq lo (lo + n)) (Holds.empty _ _ _ _) ?_
    intro n new hn hnew
    rw [h (lo + n) (by omega) (by omega)]
    exact hnew.store hpow (by omega)
  by_cases hle : lo ≤ hi
  · rwa [Nat.add_sub_cancel' hle] at hall
  · exact fun p hp hp' => absurd hp (by omega)

/-! ### Runs of entries in one or two pieces -/

/-- The slots after a block copy of `xs` to `pos`. -/
def blit (slots : Nat → α) (pos : Nat) (xs : List α) : Nat → α := fun i =>
  if pos ≤ i then (xs[i - pos]?).getD (slots i) else slots i

theorem blit_inside (hi : i < xs.length) : blit slots pos xs (pos + i) = xs.get ⟨i, hi⟩ := by
  rw [blit, if_pos (Nat.le_add_right _ _), Nat.add_sub_cancel_left, getElem?_eq_getElem hi]
  rfl

theorem blit_outside (hi : i < pos ∨ pos + xs.length ≤ i) : blit slots pos xs i = slots i := by
  unfold blit
  split
  · rw [getElem?_eq_none (by omega)]
    rfl
  · rfl

/-- A block copy to the slot of `hi`, in two pieces when it passes the last slot. -/
def write (mask : Nat) (slots : Nat → α) (hi : Nat) (xs : List α) : Nat → α :=
  let pos := hi &&& mask
  if pos + xs.length ≤ mask + 1 then blit slots pos xs
  else
    let first := mask + 1 - pos
    blit (blit slots pos (xs.take first)) 0 (xs.drop first)

theorem slot_add (hpow : PowMask mask) (hi : Nat) (hlt : i < mask + 1) : (hi + i) &&& mask =
      if (hi &&& mask) + i < mask + 1 then (hi &&& mask) + i
      else (hi &&& mask) + i - (mask + 1) := by
  have hpos : hi % (mask + 1) < mask + 1 := Nat.mod_lt _ (Nat.succ_pos _)
  rw [and_powMask hpow, and_powMask hpow, Nat.add_mod, Nat.mod_eq_of_lt hlt]
  split
  · exact Nat.mod_eq_of_lt (by assumption)
  · rw [Nat.mod_eq_sub_mod (by omega), Nat.mod_eq_of_lt (by omega)]

theorem write_inside (hpow : PowMask mask) (hi' : i < xs.length) (hlen : xs.length ≤ mask + 1) :
    write mask slots hi xs ((hi + i) &&& mask) = xs.get ⟨i, hi'⟩ := by
  have hpos : hi &&& mask < mask + 1 := by
    rw [and_powMask hpow]
    exact Nat.mod_lt _ (Nat.succ_pos _)
  rw [slot_add hpow hi (by omega)]
  unfold write
  split
  · rw [if_pos (by omega), blit_inside hi']
  · by_cases hfir : (hi &&& mask) + i < mask + 1
    · -- the first piece, which the second leaves alone
      have htake : i < (xs.take (mask + 1 - (hi &&& mask))).length := by
        rw [length_take]
        omega
      rw [if_pos hfir, blit_outside (.inr (by rw [length_drop]; omega)), blit_inside htake]
      exact getElem_take
    · have hdrop : (hi &&& mask) + i - (mask + 1) <
          (xs.drop (mask + 1 - (hi &&& mask))).length := by
        rw [length_drop]
        omega
      rw [if_neg hfir, ← zero_add ((hi &&& mask) + i - (mask + 1)), blit_inside hdrop]
      refine getElem_drop.trans ?_
      congr 1
      omega

theorem write_outside (hpow : PowMask mask) (hq : q < mask + 1)
    (hne : ∀ i, i < xs.length → q ≠ (hi + i) &&& mask) (hlen : xs.length ≤ mask + 1) :
    write mask slots hi xs q = slots q := by
  have hpos : hi &&& mask < mask + 1 := by
    rw [and_powMask hpow]
    exact Nat.mod_lt _ (Nat.succ_pos _)
  have hslot : ∀ i, i < xs.length → q ≠ if (hi &&& mask) + i < mask + 1 then (hi &&& mask) + i
      else (hi &&& mask) + i - (mask + 1) := fun i hi' => by
    rw [← slot_add hpow hi (by omega)]
    exact hne i hi'
  unfold write
  split
  · refine blit_outside ?_
    by_contra hin
    have := hslot (q - (hi &&& mask)) (by omega)
    rw [if_pos (by omega)] at this
    omega
  · rw [blit_outside, blit_outside]
    · have := hslot (q - (hi &&& mask)) (by omega)
      rw [if_pos (by omega)] at this
      omega
    · rw [length_drop]
      by_contra hin
      have := hslot (q + (mask + 1) - (hi &&& mask)) (by omega)
      rw [if_neg (by omega)] at this
      omega

/-- **A run stored at the end** of a ring with room for it. -/
theorem Holds.write (hpow : PowMask mask) (h : Holds mask slots seq lo hi)
    (hlo : lo ≤ hi) (hroom : hi + xs.length ≤ lo + (mask + 1))
    (hseq : ∀ i (h : i < xs.length), seq (hi + i) = xs.get ⟨i, h⟩) :
    Holds mask (Ring.write mask slots hi xs) seq lo (hi + xs.length) := by
  intro p hp hp'
  have hlen : xs.length ≤ mask + 1 := by omega
  by_cases hold : p < hi
  · have hlt : p &&& mask < mask + 1 := by
      rw [and_powMask hpow]
      exact Nat.mod_lt _ (Nat.succ_pos _)
    rw [write_outside hpow hlt (fun i hi' => slot_ne hpow (by omega) (by omega)) hlen]
    exact h p hp hold
  · obtain ⟨i, rfl⟩ := Nat.exists_eq_add_of_le (Nat.le_of_not_lt hold)
    rw [write_inside hpow (by omega) hlen, hseq]

/-- A run of `count` entries from `start` on, read in one or two pieces. -/
def read (mask : Nat) (slots : Nat → α) (start count : Nat) : List α :=
  let pos := start &&& mask
  let first := if count ≤ mask + 1 - pos then count else mask + 1 - pos
  (range first).map (fun i => slots (pos + i)) ++ (range (count - first)).map slots

theorem read_eq (hpow : PowMask mask) (slots : Nat → α) (start : Nat) {count : Nat}
    (hcount : count ≤ mask + 1) :
    read mask slots start count = (range count).map fun i => slots ((start + i) &&& mask) := by
  have hpos : start &&& mask < mask + 1 := by
    rw [and_powMask hpow]
    exact Nat.mod_lt _ (Nat.succ_pos _)
  unfold read
  dsimp only
  generalize hfir : (if count ≤ mask + 1 - (start &&& mask) then count
    else mask + 1 - (start &&& mask)) = first
  have hle : first ≤ count := by
    rw [← hfir]
    split <;> omega
  have hpiece : first ≤ mask + 1 - (start &&& mask) := by
    rw [← hfir]
    split <;> omega
  have hrest : first = count ∨ first = mask + 1 - (start &&& mask) := by
    rw [← hfir]
    split
    · exact .inl rfl
    · exact .inr rfl
  have hspl : range count = range first ++ (range (count - first)).map (first + ·) :=
    by rw [← range_add, Nat.add_sub_cancel' hle]
  rw [hspl, map_append, map_map]
  congr 1
  · refine map_congr_left fun i hi' => ?_
    have hi' := mem_range.mp hi'
    rw [slot_add hpow start (by omega), if_pos (by omega)]
  · refine map_congr_left fun i hi' => ?_
    have hi' := mem_range.mp hi'
    rw [Function.comp, slot_add hpow start (by omega), if_neg (by omega)]
    congr 1
    omega

/-- **A run read out of a ring that holds a list** is that run of the list. -/
theorem Holds.read_eq (hpow : PowMask mask) {first last : Nat}
    (h : Holds mask slots (fun p => xs.getD p d) lo xs.length) (hfir : lo ≤ first)
    (hlast : last ≤ xs.length) (hcount : last - first ≤ mask + 1) :
    read mask slots first (last - first) = (xs.drop first).take (last - first) := by
  rw [Ring.read_eq hpow _ _ hcount]
  refine ext_getElem (by simp; omega) fun i hi hi' => ?_
  have hlt : i < last - first := by simpa using hi
  rw [getElem_map, getElem_range, h (first + i) (by omega) (by omega), getElem_take, getElem_drop]
  exact getD_eq_getElem _ _ (by omega)

end Ring
end Crucible
