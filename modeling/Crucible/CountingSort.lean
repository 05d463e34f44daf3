import Crucible.Loops
import Mathlib.Algebra.Order.Ring.Nat

/-! # Counting sort into buckets

The three passes of a counting sort over scratch arrays: count the items of each
key, turn the counts into bucket offsets, and scatter the items through one
cursor per bucket.  The slice of the scattered array between two consecutive offsets is the
sublist of the items that have that key, in their own order (`bucket_scatter`).
-/
namespace Crucible
open List Function
namespace CountingSort

variable {α : Type} (key : α → Option Nat)

def bump (count : Nat → Nat) (x : α) : Nat → Nat :=
  match key x with
  | none => count
  | some k => update count k (count k + 1)

def counts (items : List α) : Nat → Nat :=
  items.foldl (bump key) (fun _ => 0)

/-- The offset of each bucket: the sum of the counts before it. -/
def offsets (count : Nat → Nat) : Nat → Nat
  | 0 => 0
  | k + 1 => offsets count k + count k

/-- The cursors and the output array of the scatter pass. -/
structure Scatter (α : Type) where
  cursor : Nat → Nat
  out : Nat → α

/-- One step of the scatter pass: store the item at its bucket's cursor and
advance the cursor. -/
def place (s : Scatter α) (x : α) : Scatter α :=
  match key x with
  | none => s
  | some k =>
    { cursor := update s.cursor k (s.cursor k + 1)
      out := update s.out (s.cursor k) x }

variable {key} {x : α}

theorem place_none (h : key x = none) (s : Scatter α) : place key s x = s := by
  simp [place, h]

variable {k a b : Nat}

theorem place_some (h : key x = some k) (s : Scatter α) : place key s x =
      { cursor := update s.cursor k (s.cursor k + 1)
        out := update s.out (s.cursor k) x } := by
  simp [place, h]

variable (key)

/-- The scatter pass.  The cursors start as copies of the offsets, and the output
array starts with whatever it held. -/
def scatter (off : Nat → Nat) (junk : Nat → α) (items : List α) : Scatter α :=
  items.foldl (place key) { cursor := off, out := junk }

/-- The slice of an array between the offsets of buckets `k` and `k + 1`. -/
def slice (off : Nat → Nat) (out : Nat → α) (k : Nat) : List α :=
  (range (off (k + 1) - off k)).map fun i => out (off k + i)

/-- The items with key `k`, in order. -/
def bucket (items : List α) (k : Nat) : List α :=
  items.filter fun x => key x == some k

variable {key} in
theorem mem_bucket {items : List α} : x ∈ bucket key items k ↔ x ∈ items ∧ key x = some k := by
  simp [bucket]

theorem bucket_append (xs ys : List α) (k : Nat) :
    bucket key (xs ++ ys) k = bucket key xs k ++ bucket key ys k :=
  filter_append ..

theorem bucket_singleton (x : α) (k : Nat) :
    bucket key [x] k = if key x = some k then [x] else [] := by
  by_cases h : key x = some k <;> simp [bucket, h]

theorem sum_map_bucket (f : α → Nat) (items : List α) (k : Nat) :
    ((bucket key items k).map f).sum =
      (items.map fun x => if key x = some k then f x else 0).sum := by
  induction items with
  | nil => rfl
  | cons x xs ih =>
    by_cases hx : key x = some k
    · have hcons : bucket key (x :: xs) k = x :: bucket key xs k := by simp [bucket, hx]
      simp [hcons, hx, ih]
    · have hcons : bucket key (x :: xs) k = bucket key xs k := by simp [bucket, hx]
      simp [hcons, hx, ih]

theorem counts_eq (items : List α) (k : Nat) :
    counts key items k = (bucket key items k).length := by
  induction items using reverseRecOn with
  | nil => rfl
  | append_singleton xs x ih =>
    rw [bucket_append, length_append, ← ih, counts, foldl_append]
    change bump key (counts key xs) x k = _
    rw [bucket_singleton]
    unfold bump
    cases hx : key x with
    | none => simp
    | some k' =>
      by_cases hk : k = k'
      · subst hk; simp
      · simp [hk, Ne.symm hk]

theorem offsets_mono (count : Nat → Nat) (h : a ≤ b) : offsets count a ≤ offsets count b := by
  induction b, h using Nat.le_induction with
  | base => exact le_rfl
  | succ b _ ih => exact ih.trans le_self_add

theorem offsets_inj {count : Nat → Nat} {i j : Nat} (hi : i < count a) (hj : j < count b)
    (h : offsets count a + i = offsets count b + j) : a = b := by
  rcases lt_trichotomy a b with hab | hab | hab
  · have := offsets_mono count (show a + 1 ≤ b from hab)
    simp only [offsets] at this
    omega
  · exact hab
  · have := offsets_mono count (show b + 1 ≤ a from hab)
    simp only [offsets] at this
    omega

/-- The invariant of the scatter pass after the items `done`: each cursor stands
behind the items of its bucket, and those items are in place. -/
structure Placed (off : Nat → Nat) (done : List α) (s : Scatter α) :
    Prop where
  cursor_eq : ∀ k, s.cursor k = off k + (bucket key done k).length
  out_eq : ∀ k i, (h : i < (bucket key done k).length) → s.out (off k + i) = (bucket key done k)[i]

variable {key} in
/-- One scatter step keeps the invariant.  The cursor is still inside its bucket
because the item itself is not yet in place. -/
theorem Placed.place {items done rest : List α} {s : Scatter α} (hitems : items = done ++ x :: rest)
    (h : Placed key (offsets (counts key items)) done s) :
    Placed key (offsets (counts key items)) (done ++ [x]) (place key s x) := by
  cases hx : key x with
  | none =>
    rw [place_none hx]
    have hsame : ∀ k, bucket key (done ++ [x]) k = bucket key done k := by
      intro k
      rw [bucket_append, bucket_singleton]
      simp [hx]
    refine ⟨fun k => ?_, fun k i hi => ?_⟩
    · rw [hsame]; exact h.cursor_eq k
    · simp only [hsame] at hi ⊢
      exact h.out_eq k i hi
  | some k' =>
    rw [place_some hx]
    have hlen : ∀ k, (bucket key done k).length ≤ counts key items k := by
      intro k
      rw [counts_eq, hitems, bucket_append, length_append]
      exact le_self_add
    have hroom : (bucket key done k').length < counts key items k' := by
      rw [counts_eq, hitems, bucket_append, length_append]
      have : x ∈ bucket key (x :: rest) k' := mem_bucket.mpr ⟨mem_cons_self, hx⟩
      have := length_pos_of_mem this
      omega
    have hgrow : ∀ k, bucket key (done ++ [x]) k =
        bucket key done k ++ if k' = k then [x] else [] := by
      intro k
      rw [bucket_append, bucket_singleton]
      simp [hx]
    refine ⟨fun k => ?_, fun k i hi => ?_⟩
    · by_cases hk : k = k'
      · subst hk
        rw [hgrow]
        simp [h.cursor_eq, add_assoc]
      · simp only
        rw [update_of_ne hk, h.cursor_eq, hgrow, if_neg (Ne.symm hk), append_nil]
    · by_cases hk : k' = k
      · subst hk
        simp only [hgrow, if_pos, length_append, length_singleton] at hi ⊢
        rcases lt_or_ge i (bucket key done k').length with hlt | hge
        · rw [update_of_ne, getElem_append_left hlt]
          · exact h.out_eq k' i hlt
          · rw [h.cursor_eq]; omega
        · obtain rfl : i = (bucket key done k').length := by omega
          rw [← h.cursor_eq, update_self]
          simp
      · simp only [hgrow, if_neg hk, append_nil] at hi ⊢
        rw [update_of_ne]
        · exact h.out_eq k i hi
        · rw [h.cursor_eq]
          intro heq
          exact hk (offsets_inj (hi.trans_le (hlen k)) hroom heq).symm

theorem placed_scatter (junk : Nat → α) (items : List α) :
    Placed key (offsets (counts key items)) items
      (scatter key (offsets (counts key items)) junk items) := by
  refine foldl_done_inv (Placed key _) ⟨fun k => rfl, fun k i hi => ?_⟩
    fun done x rest s hitems hs => hs.place hitems
  simp [bucket] at hi

/-- **The slice of each bucket holds the items of that key, in order.** -/
theorem slice_scatter (junk : Nat → α) (items : List α) (k : Nat) :
    slice (offsets (counts key items))
      (scatter key (offsets (counts key items)) junk items).out k = bucket key items k := by
  have hp := placed_scatter key junk items
  have hlen : offsets (counts key items) (k + 1) - offsets (counts key items) k =
      (bucket key items k).length := by
    rw [← counts_eq]
    simp only [offsets]
    omega
  unfold slice
  rw [hlen]
  apply ext_getElem
  · simp
  · intro i _ hi
    simpa using hp.out_eq k i hi

end CountingSort
end Crucible
