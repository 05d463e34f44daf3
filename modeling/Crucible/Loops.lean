import Mathlib.Data.List.Basic
import Mathlib.Data.List.Induction

/-! # Rules for counted loops

The invariant rules for a `for` loop over `0 .. n`, written as a fold over
`List.range n`, for a loop over the entries of an array that skips some, and for a
loop whose steps can fail.
-/
namespace Crucible
open List

variable {σ β ε : Type}

/-- An invariant indexed by the loop counter holds after the whole loop. -/
theorem foldl_range_inv {step : σ → Nat → σ} (Inv : Nat → σ → Prop) {n : Nat} {s : σ}
    (h0 : Inv 0 s) (hstep : ∀ i t, i < n → Inv i t → Inv (i + 1) (step t i)) :
    Inv n ((range n).foldl step s) := by
  induction n with
  | zero => exact h0
  | succ n ih =>
    rw [range_succ, foldl_append]
    exact hstep n _ (Nat.lt_succ_self n)
      (ih fun i t hi => hstep i t (Nat.lt_succ_of_lt hi))

/-- Two loops whose steps agree wherever the first one's invariant holds compute
the same state. -/
theorem foldl_range_congr {f g : σ → Nat → σ} (Inv : Nat → σ → Prop) {n : Nat} {s : σ}
    (h0 : Inv 0 s) (hstep : ∀ i t, i < n → Inv i t → Inv (i + 1) (g t i))
    (heq : ∀ i t, i < n → Inv i t → f t i = g t i) :
    (range n).foldl f s = (range n).foldl g s := by
  induction n with
  | zero => rfl
  | succ n ih =>
    have hprev := ih (fun i t hi => hstep i t (Nat.lt_succ_of_lt hi))
      (fun i t hi => heq i t (Nat.lt_succ_of_lt hi))
    have hinv : Inv n ((range n).foldl g s) :=
      foldl_range_inv Inv h0 fun i t hi => hstep i t (Nat.lt_succ_of_lt hi)
    rw [range_succ, foldl_append, foldl_append, hprev]
    exact heq n _ (Nat.lt_succ_self n) hinv

variable {α : Type}

/-- An invariant that knows the elements behind it holds after the whole loop. -/
theorem foldl_done_inv {step : σ → α → σ} (Inv : List α → σ → Prop) {xs : List α} {s : σ}
    (h0 : Inv [] s) (hstep : ∀ done x rest t, xs = done ++ x :: rest → Inv done t →
      Inv (done ++ [x]) (step t x)) : Inv xs (xs.foldl step s) := by
  induction xs using reverseRecOn with
  | nil => exact h0
  | append_singleton xs x ih =>
    rw [foldl_append]
    refine hstep xs x [] _ rfl (ih fun done y rest t heq => hstep done y (rest ++ [x]) t ?_)
    rw [heq, append_assoc, cons_append]

/-- An invariant that the steps keep which meet a condition holds before each step and at the end,
if all steps meet it. -/
theorem foldl_before_inv {step : σ → α → σ} {cond : σ → α → Prop} (Inv : σ → Prop) {xs : List α}
    {s : σ} (h0 : Inv s) (hstep : ∀ t x, Inv t → cond t x → Inv (step t x))
    (hall : ∀ before x after, xs = before ++ x :: after → cond (before.foldl step s) x) :
    ∀ before after, xs = before ++ after → Inv (before.foldl step s) := by
  intro before
  induction before using reverseRecOn with
  | nil => exact fun _ _ => h0
  | append_singleton before x ih =>
    intro after heq
    rw [append_assoc] at heq
    rw [foldl_append]
    exact hstep _ x (ih _ heq) (hall before x after heq)

/-- The entries of an array whose index is not skipped, in order. -/
def entriesBut (skip : Nat → Bool) (xs : List α) : List α :=
  (range xs.length).filterMap fun i => if skip i then none else xs[i]?

theorem mem_entriesBut {skip : Nat → Bool} {xs : List α} {x : α} :
    x ∈ entriesBut skip xs ↔ ∃ i, xs[i]? = some x ∧ skip i = false := by
  simp only [entriesBut, mem_filterMap, mem_range]
  constructor
  · rintro ⟨i, -, hi⟩
    cases hs : skip i with
    | false => exact ⟨i, by simpa [hs] using hi, hs⟩
    | true => simp [hs] at hi
  · rintro ⟨i, hi, hs⟩
    obtain ⟨hlt, -⟩ := List.getElem?_eq_some_iff.mp hi
    exact ⟨i, hlt, by simpa [hs] using hi⟩

theorem entriesBut_sublist (skip : Nat → Bool) (xs : List α) : (entriesBut skip xs).Sublist xs := by
  induction xs generalizing skip with
  | nil => exact Sublist.refl _
  | cons x xs ih =>
    have htail : entriesBut skip (x :: xs) =
        (if skip 0 then [] else [x]) ++ entriesBut (fun i => skip (i + 1)) xs := by
      unfold entriesBut
      rw [length_cons, range_succ_eq_map, filterMap_cons]
      cases hs : skip 0 <;> simp
    rw [htail]
    cases skip 0 with
    | false => exact (ih _).cons_cons x
    | true => exact (ih _).cons x

/-- Where keys are unique, changing the entry that a search finds changes those of its key. -/
theorem modify_findIdx? {κ : Type} [DecidableEq κ] {key : α → κ} {k : κ} {xs : List α} {i : Nat}
    (hnod : (xs.map key).Nodup) (hi : xs.findIdx? (fun x => decide (key x = k)) = some i)
    (f : α → α) : xs.modify i f = xs.map fun x => if key x = k then f x else x := by
  obtain ⟨hlt, hkey, -⟩ := findIdx?_eq_some_iff_getElem.mp hi
  have hkey := of_decide_eq_true hkey
  refine List.ext_getElem (by simp) fun j hj hj' => ?_
  rw [length_map] at hj'
  rw [getElem_modify, getElem_map]
  by_cases hij : i = j
  · subst hij
    rw [if_pos rfl, if_pos hkey]
  · rw [if_neg hij, if_neg]
    refine fun hsame => hij ((getElem?_inj (by simpa) hnod).mp ?_)
    simp [hlt, hj', hkey, hsame]

variable {f : β → α → Except ε β} {xs ys : List α} {acc mid r : β} {e : ε}

section
variable {x : Except ε α} {a : α}

theorem bind_ok {f : α → Except ε β}
    (h : x >>= f = .ok r) : ∃ a, x = .ok a ∧ f a = .ok r := by
  cases x with
  | error e => cases h
  | ok a => exact ⟨a, rfl, h⟩

theorem check_ok {p : Prop} [Decidable p] :
    (if p then .error e else x) = .ok a ↔ ¬ p ∧ x = .ok a := by
  by_cases hp : p <;> simp [hp]

theorem bind_of_ok {f : α → Except ε β} (h : x = .ok a) : x >>= f = f a := by
  rw [h]
  rfl

theorem map_ok {f : α → β} (h : f <$> x = .ok r) : ∃ a, x = .ok a ∧ f a = r := by
  cases x with
  | error e => cases h
  | ok a => exact ⟨a, rfl, Except.ok.inj h⟩

theorem ok_of_eval {f : α → β} {b : β}
    (h : x.toOption.map f = some b) : ∃ a, x = .ok a ∧ f a = b := by
  cases x with
  | error e => cases h
  | ok a => exact ⟨a, rfl, Option.some.inj h⟩

end

/-- An invariant of the steps of a loop that returns holds at its end. -/
theorem foldlM_inv (Inv : β → Prop) (h0 : Inv acc)
    (hstep : ∀ acc x acc', x ∈ xs → Inv acc → f acc x = .ok acc' → Inv acc')
    (h : xs.foldlM f acc = .ok r) : Inv r := by
  induction xs generalizing acc with
  | nil =>
    cases h
    exact h0
  | cons x xs ih =>
    obtain ⟨mid, hmid, hrest⟩ := bind_ok h
    exact ih (hstep acc x mid mem_cons_self h0 hmid)
      (fun acc y acc' hy => hstep acc y acc' (mem_cons_of_mem x hy)) hrest

/-- Every step of a loop meets a condition on its state and its item. -/
def AllSteps {α β ε : Type} (f : β → α → Except ε β) (cond : β → α → Prop) : β → List α → Prop
  | _, [] => True
  | acc, x :: xs => cond acc x ∧ match f acc x with
    | .ok acc' => AllSteps f cond acc' xs
    | .error _ => True

instance AllSteps.decidable {α β ε : Type} (f : β → α → Except ε β) (cond : β → α → Prop)
    [∀ acc x, Decidable (cond acc x)] : ∀ acc xs, Decidable (AllSteps f cond acc xs)
  | _, [] => isTrue trivial
  | acc, x :: xs =>
    match hstep : f acc x with
    | .ok acc' =>
      have := AllSteps.decidable f cond acc' xs
      decidable_of_iff (cond acc x ∧ AllSteps f cond acc' xs) (by rw [AllSteps, hstep])
    | .error _ => decidable_of_iff (cond acc x ∧ True) (by rw [AllSteps, hstep])

variable {cond : β → α → Prop}

theorem foldlM_allSteps (Inv : β → Prop) (h0 : Inv acc)
    (hstep : ∀ acc x acc', cond acc x → Inv acc → f acc x = .ok acc' → Inv acc')
    (hall : AllSteps f cond acc xs) (h : xs.foldlM f acc = .ok r) : Inv r := by
  induction xs generalizing acc with
  | nil =>
    cases h
    exact h0
  | cons x xs ih =>
    obtain ⟨mid, hmid, hrest⟩ := bind_ok h
    rw [AllSteps, hmid] at hall
    exact ih (hstep acc x mid hall.1 h0 hmid) hall.2 hrest

theorem foldlM_ne_error (Inv : β → Prop) (h0 : Inv acc)
    (hstep : ∀ acc x acc', cond acc x → Inv acc → f acc x = .ok acc' → Inv acc')
    (hfault : ∀ acc x, cond acc x → Inv acc → f acc x ≠ .error e)
    (hall : AllSteps f cond acc xs) : xs.foldlM f acc ≠ .error e := by
  induction xs generalizing acc with
  | nil => exact nofun
  | cons x xs ih =>
    rw [foldlM_cons]
    have hne := hfault acc x hall.1 h0
    cases hx : f acc x with
    | error e' =>
      rw [hx] at hne
      exact hne
    | ok mid =>
      rw [AllSteps, hx] at hall
      exact ih (hstep acc x mid hall.1 h0 hx) hall.2

theorem AllSteps.at_step {x : α} (hall : AllSteps f cond acc (xs ++ x :: ys))
    (h : xs.foldlM f acc = .ok r) : cond r x := by
  induction xs generalizing acc with
  | nil =>
    cases h
    exact hall.1
  | cons y xs ih =>
    obtain ⟨mid, hmid, hrest⟩ := bind_ok h
    rw [cons_append, AllSteps, hmid] at hall
    exact ih hall.2 hrest

theorem foldlM_cons_ok {x : α} (h : f acc x = .ok mid) : (x :: xs).foldlM f acc = xs.foldlM f mid := by
  exact bind_of_ok h

/-- A loop whose steps return and keep an invariant returns. -/
theorem foldlM_ok (Inv : β → Prop) (xs : List α) {s : β} (h0 : Inv s)
    (hstep : ∀ s x, x ∈ xs → Inv s → ∃ s', f s x = .ok s' ∧ Inv s') :
    ∃ r, xs.foldlM f s = .ok r ∧ Inv r := by
  induction xs generalizing s with
  | nil => exact ⟨s, rfl, h0⟩
  | cons x xs ih =>
    obtain ⟨s', hx, hs'⟩ := hstep s x mem_cons_self h0
    obtain ⟨r, hr, hinv⟩ := ih hs' fun s y hy => hstep s y (mem_cons_of_mem _ hy)
    exact ⟨r, (foldlM_cons_ok hx).trans hr, hinv⟩

theorem foldlM_append_ok (h : xs.foldlM f acc = .ok mid)
    (h' : ys.foldlM f mid = .ok r) : (xs ++ ys).foldlM f acc = .ok r := by
  rw [foldlM_append, h]
  exact h'

/-- The states of a counted loop whose steps can fail: either one of them does, or an invariant
indexed by the loop counter holds at the end. -/
theorem foldlM_range_cases {f : β → Nat → Except ε β} {B : ε → Prop} (Inv : Nat → β → Prop)
    {n : Nat} {s : β} (h0 : Inv 0 s)
    (hstep : ∀ i t, i < n → Inv i t → (∃ e, f t i = .error e ∧ B e) ∨
      ∃ t', f t i = .ok t' ∧ Inv (i + 1) t') :
    (∃ e, (range n).foldlM f s = .error e ∧ B e) ∨ ∃ t, (range n).foldlM f s = .ok t ∧ Inv n t := by
  induction n with
  | zero => exact .inr ⟨s, rfl, h0⟩
  | succ n ih =>
    rw [range_succ, foldlM_append]
    rcases ih fun i t hi => hstep i t (Nat.lt_succ_of_lt hi) with ⟨e, hfold, he⟩ | ⟨t, hfold, ht⟩
    · exact .inl ⟨e, by rw [hfold]; rfl, he⟩
    · rw [bind_of_ok hfold, foldlM_cons]
      rcases hstep n t (Nat.lt_succ_self n) ht with ⟨e, hfail, he⟩ | ⟨t', hok, ht'⟩
      · exact .inl ⟨e, by rw [hfail]; rfl, he⟩
      · exact .inr ⟨t', by rw [hok]; rfl, ht'⟩

theorem foldlM_range_ok {f : β → Nat → Except ε β} (Inv : Nat → β → Prop) {n : Nat} {s : β}
    (h0 : Inv 0 s) (hstep : ∀ i t, i < n → Inv i t → ∃ t', f t i = .ok t' ∧ Inv (i + 1) t') :
    ∃ t, (range n).foldlM f s = .ok t ∧ Inv n t := by
  have hcas := foldlM_range_cases (B := fun _ => False) Inv h0
    fun i t hi ht => .inr (hstep i t hi ht)
  exact hcas.resolve_left fun ⟨_, _, hno⟩ => hno

/-- A concatenation of blocks determines the blocks up to `R`, when a block with whatever
follows it determines the block up to `R` and what follows. -/
theorem flatMap_forall₂ {R : α → α → Prop} {block : α → List β} {P : α → Prop}
    (hne : ∀ a, block a ≠ [])
    (hspl : ∀ a b rest rest', P a → P b → block a ++ rest = block b ++ rest' →
      R a b ∧ rest = rest') {xs ys : List α} (hxs : ∀ a ∈ xs, P a) (hys : ∀ b ∈ ys, P b)
    (heq : xs.flatMap block = ys.flatMap block) : Forall₂ R xs ys := by
  induction xs generalizing ys with
  | nil =>
    cases ys with
    | nil => exact .nil
    | cons y ys => exact absurd (append_eq_nil_iff.mp heq.symm).1 (hne y)
  | cons x xs ih =>
    cases ys with
    | nil => exact absurd (append_eq_nil_iff.mp heq).1 (hne x)
    | cons y ys =>
      obtain ⟨hxy, hrest⟩ := hspl x y _ _ (hxs x mem_cons_self) (hys y mem_cons_self) heq
      exact .cons hxy (ih (fun a ha => hxs a (mem_cons_of_mem x ha))
        (fun b hb => hys b (mem_cons_of_mem y hb)) hrest)

end Crucible
