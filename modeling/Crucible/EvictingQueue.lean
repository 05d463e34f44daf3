import Mathlib.Data.List.Infix

/-! # Queues that drop their oldest entries

A bounded queue makes room for a new entry by dropping its first one.  What is taken from the
front later, by number alone, may then be an entry that was not there yet when the number was
counted.
-/
namespace Crucible
open List
namespace EvictingQueue

variable {α : Type} (cap : Nat)

/-- A full queue drops its oldest entry. -/
def push (q : List α) (x : α) : List α := (if q.length = cap then q.drop 1 else q) ++ [x]

def pushAll (q xs : List α) : List α := xs.foldl (push cap) q

/-- The entries `xs` came after the queue `q`.  Dropping as many entries as `q` had drops none of
those of `xs` that are still there. -/
def DropsOnlyOld (q xs : List α) : Prop :=
  ∀ s, s <:+ xs → s <:+ pushAll cap q xs → s <:+ (pushAll cap q xs).drop q.length

variable {cap} {q xs : List α}

theorem drop_min (n : Nat) : q.drop (min q.length n) = q.drop n := by
  rcases Nat.le_total q.length n with hle | hle
  · rw [min_eq_left hle, drop_length, drop_eq_nil_of_le hle]
  · rw [min_eq_right hle]

theorem pushAll_suffix : pushAll cap q xs <:+ q ++ xs := by
  induction xs generalizing q with
  | nil => rw [append_nil]; exact suffix_rfl
  | cons x xs ih =>
    refine ih.trans ?_
    rw [append_cons, push]
    split
    · obtain ⟨t, ht⟩ := drop_suffix 1 q
      exact ⟨t, by rw [← append_assoc, ← append_assoc, ht]⟩
    · exact suffix_rfl

theorem length_pushAll (hcap : 0 < cap) (hq : q.length ≤ cap) :
    (pushAll cap q xs).length = min (q.length + xs.length) cap := by
  induction xs generalizing q with
  | nil => exact (min_eq_left hq).symm
  | cons x xs ih =>
    have hlen : (push cap q x).length = min (q.length + 1) cap := by
      rw [push]
      split <;> simp <;> omega
    refine (ih (by omega)).trans ?_
    rw [hlen, length_cons]
    omega

/-- **Entries are dropped by number without loss** if none was there, or all have room. -/
theorem dropsOnlyOld_iff (hq : q.length ≤ cap) :
    DropsOnlyOld cap q xs ↔ q = [] ∨ q.length + xs.length ≤ cap := by
  constructor
  · intro h
    by_contra! hnot
    obtain ⟨hne, hover⟩ := hnot
    have hpos := length_pos_iff.mpr hne
    have hlen : (pushAll cap q xs).length = _ := length_pushAll (hpos.trans_le hq) hq
    -- the newest entries that are still in the queue
    have hnew : xs.drop (xs.length - cap) <:+ pushAll cap q xs :=
      suffix_of_suffix_length_le ((drop_suffix _ _).trans (suffix_append _ _)) pushAll_suffix
        (by rw [length_drop, hlen]; omega)
    have hle := (h _ (drop_suffix _ _) hnew).length_le
    rw [length_drop, length_drop, hlen] at hle
    omega
  · intro h s hs hin
    by_cases hne : q = []
    · subst hne
      exact hin
    · have hroom := h.resolve_left hne
      have hcap := (length_pos_iff.mpr hne).trans_le hq
      have hall : pushAll cap q xs = q ++ xs := pushAll_suffix.eq_of_length (by
        rw [length_pushAll hcap hq, min_eq_left hroom, length_append])
      rwa [hall, drop_left]

end EvictingQueue
end Crucible
