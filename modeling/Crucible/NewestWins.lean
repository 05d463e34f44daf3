import Mathlib.Data.List.Basic
import Mathlib.Order.Lattice

/-! # Keeping the newest of several records

A holder keeps one record and takes another one over it only if the key of the other one
is strictly larger.  What it holds after a list of offers has the largest key of all, and
on a tie the record that came first.  The offers in any order and with repetitions lead
to the same record exactly when the records with the largest key agree.
-/
namespace Crucible
open List

variable {α κ : Type} [LinearOrder κ] (key : α → κ)

def newest (held offer : α) : α := if key held < key offer then offer else held

def newestOf (held : α) (offers : List α) : α := offers.foldl (newest key) held

@[simp] theorem newestOf_cons (held offer : α) (offers : List α) :
    newestOf key held (offer :: offers) = newestOf key (newest key held offer) offers := rfl

variable {key}

variable {held offer : α}

theorem newest_of_lt (h : key held < key offer) : newest key held offer = offer :=
  if_pos h

theorem newest_of_le (h : key offer ≤ key held) : newest key held offer = held :=
  if_neg (not_lt.mpr h)

variable (key) in
theorem le_newest (held offer : α) :
    key held ≤ key (newest key held offer) ∧ key offer ≤ key (newest key held offer) := by
  rcases lt_or_ge (key held) (key offer) with h | h
  · rw [newest_of_lt h]
    exact ⟨h.le, le_rfl⟩
  · rw [newest_of_le h]
    exact ⟨le_rfl, h⟩

variable (key) in
theorem le_newestOf (held : α) (offers : List α) : key held ≤ key (newestOf key held offers) ∧
      ∀ offer ∈ offers, key offer ≤ key (newestOf key held offers) := by
  induction offers generalizing held with
  | nil => exact ⟨le_rfl, fun offer hoff => absurd hoff not_mem_nil⟩
  | cons first offers ih =>
    obtain ⟨hheld, hrest⟩ := ih (newest key held first)
    obtain ⟨h1, h2⟩ := le_newest key held first
    refine ⟨h1.trans hheld, ?_⟩
    intro offer hoff
    rcases mem_cons.mp hoff with rfl | hmem
    · exact h2.trans hheld
    · exact hrest offer hmem

variable (key) in
theorem newestOf_cases (held : α) (offers : List α) : newestOf key held offers = held ∨
      newestOf key held offers ∈ offers ∧ key held < key (newestOf key held offers) := by
  induction offers generalizing held with
  | nil => exact .inl rfl
  | cons first offers ih =>
    rw [newestOf_cons]
    rcases lt_or_ge (key held) (key first) with h | h
    · rw [newest_of_lt h]
      right
      rcases ih first with heq | ⟨hmem, hlt⟩
      · rw [heq]
        exact ⟨mem_cons_self, h⟩
      · exact ⟨mem_cons_of_mem first hmem, h.trans hlt⟩
    · rw [newest_of_le h]
      rcases ih held with heq | ⟨hmem, hlt⟩
      · exact .inl heq
      · exact .inr ⟨mem_cons_of_mem first hmem, hlt⟩

theorem newestOf_of_le {offers : List α} (h : ∀ offer ∈ offers, key offer ≤ key held) :
    newestOf key held offers = held := by
  rcases newestOf_cases key held offers with heq | ⟨hmem, hlt⟩
  · exact heq
  · exact absurd hlt (not_lt.mpr (h _ hmem))

/-- As far as `f` can tell, the offers with the largest key are the same. -/
def TopAgree {β : Type} (key : α → κ) (f : α → β) (held : α) (offers : List α) : Prop :=
  ∀ a ∈ offers, ∀ b ∈ offers, key held < key a → key b = key a →
    (∀ c ∈ offers, key c ≤ key a) → f b = f a

/-- **The order and the repetition of the offers do not matter exactly when the newest
offers agree.** -/
theorem newestOf_determined_iff {β : Type} (f : α → β) (held : α) (offers : List α) :
    (∀ offers' : List α, (∀ a, a ∈ offers' ↔ a ∈ offers) →
      f (newestOf key held offers') = f (newestOf key held offers)) ↔
    TopAgree key f held offers := by
  constructor
  · -- offered first, a newest offer stays
    intro h a ha b hb hlt heq htop
    have hstays : ∀ c ∈ offers, key c = key a → newestOf key held (c :: offers) = c := by
      intro c hc hkey
      rw [newestOf_cons, newest_of_lt (hkey ▸ hlt)]
      apply newestOf_of_le
      intro x hx
      rw [hkey]
      exact htop x hx
    have hsame : ∀ c ∈ offers, ∀ x, x ∈ c :: offers ↔ x ∈ offers := by
      intro c hc x
      constructor
      · intro hx
        rcases mem_cons.mp hx with rfl | hmem
        · exact hc
        · exact hmem
      · exact mem_cons_of_mem c
    have hfir := h _ (hsame a ha)
    have hsec := h _ (hsame b hb)
    rw [hstays a ha rfl] at hfir
    rw [hstays b hb heq] at hsec
    rw [hfir, hsec]
  · intro hagr offers' hsame
    have hall := (le_newestOf key held offers).2
    have hall' := (le_newestOf key held offers').2
    rcases newestOf_cases key held offers with heq | ⟨hmem, hlt⟩
    · have heq' : newestOf key held offers' = held := by
        apply newestOf_of_le
        intro offer hoff
        rw [← heq]
        exact hall offer ((hsame offer).mp hoff)
      rw [heq, heq']
    · rcases newestOf_cases key held offers' with heq' | ⟨hmem', hlt'⟩
      · -- the other order cannot have missed the newer offer
        have := hall' _ ((hsame _).mpr hmem)
        rw [heq'] at this
        exact absurd hlt (not_lt.mpr this)
      · have hmem'' := (hsame _).mp hmem'
        refine hagr _ hmem _ hmem'' hlt (le_antisymm ?_ ?_) hall
        · exact hall _ hmem''
        · exact hall' _ ((hsame _).mpr hmem)

end Crucible
