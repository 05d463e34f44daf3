import Mathlib.Order.WellFoundedSet

/-! # The topmost elements of a set

The elements of a set that no other element is above, for a strict order.  In a finite set
every element is topmost or below a topmost one, so a part of a set may be replaced by its
topmost elements (`topmost_union_left`).
-/
namespace Crucible
open Set

variable {α : Type} (r : α → α → Prop) {S T : Set α}

/-- The elements that nothing in the set is above. -/
def topmost (S : Set α) : Set α := {x | x ∈ S ∧ ∀ y ∈ S, ¬ r x y}

theorem topmost_subset (S : Set α) : topmost r S ⊆ S := fun _ hx => hx.1

theorem topmost_eq_self (h : ∀ x ∈ S, ∀ y ∈ S, ¬ r x y) : topmost r S = S :=
  Set.Subset.antisymm (topmost_subset r S) fun x hx => ⟨hx, h x hx⟩

variable {x y : α}

theorem topmost_antichain (hx : x ∈ topmost r S) (hy : y ∈ topmost r S) : ¬ r x y :=
  hx.2 y hy.1

/-- To a set in which nothing is above anything, an element that nothing is above adds
itself and takes what it is above. -/
theorem topmost_insert (h : ∀ y ∈ S, ∀ z ∈ S, ¬ r y z) (hx : ∀ y ∈ S, ¬ r x y)
    (hirr : ¬ r x x) : topmost r (insert x S) = insert x {y | y ∈ S ∧ ¬ r y x} := by
  ext y
  constructor
  · rintro ⟨rfl | hy, htop⟩
    · exact mem_insert _ _
    · exact mem_insert_of_mem _ ⟨hy, htop x (mem_insert _ _)⟩
  · rintro (rfl | ⟨hy, hyx⟩)
    · refine ⟨mem_insert _ _, ?_⟩
      rintro z (rfl | hz)
      · exact hirr
      · exact hx z hz
    · refine ⟨mem_insert_of_mem _ hy, ?_⟩
      rintro z (rfl | hz)
      · exact hyx
      · exact h y hy z hz

variable [IsStrictOrder α r]

theorem topmost_insert_below (hy : y ∈ S) (hxy : r x y) : topmost r (insert x S) = topmost r S := by
  ext z
  constructor
  · rintro ⟨rfl | hz, htop⟩
    · exact absurd hxy (htop y (mem_insert_of_mem _ hy))
    · exact ⟨hz, fun w hw => htop w (mem_insert_of_mem _ hw)⟩
  · rintro ⟨hz, htop⟩
    refine ⟨mem_insert_of_mem _ hz, ?_⟩
    rintro w (rfl | hw) hzw
    · exact htop y hy (IsTrans.trans z w y hzw hxy)
    · exact htop w hw hzw

theorem exists_topmost_above (hfin : S.Finite) (hx : x ∈ S) : ∃ m ∈ topmost r S, x = m ∨ r x m := by
  have hwf : S.WellFoundedOn (Function.swap r) := hfin.wellFoundedOn
  have hstep : ∀ y ∈ S, (∀ z ∈ S, r y z → ∃ m ∈ topmost r S, z = m ∨ r z m) →
      ∃ m ∈ topmost r S, y = m ∨ r y m := by
    intro y hy ih
    by_cases habove : ∃ z ∈ S, r y z
    · obtain ⟨z, hz, hyz⟩ := habove
      obtain ⟨m, hm, rfl | hzm⟩ := ih z hz hyz
      · exact ⟨z, hm, .inr hyz⟩
      · exact ⟨m, hm, .inr (IsTrans.trans y z m hyz hzm)⟩
    · exact ⟨y, ⟨hy, fun z hz hyz => habove ⟨z, hz, hyz⟩⟩, .inl rfl⟩
  exact hwf.induction hx hstep

/-- **A finite part may be replaced by its topmost elements.** -/
theorem topmost_union_left (hfin : S.Finite) (T : Set α) :
    topmost r (topmost r S ∪ T) = topmost r (S ∪ T) := by
  ext x
  constructor
  · rintro ⟨hx, htop⟩
    refine ⟨union_subset_union_left T (topmost_subset r S) hx, ?_⟩
    rintro y (hy | hy) hxy
    · obtain ⟨m, hm, rfl | hym⟩ := exists_topmost_above r hfin hy
      · exact htop y (mem_union_left T hm) hxy
      · exact htop m (mem_union_left T hm) (IsTrans.trans x y m hxy hym)
    · exact htop y (mem_union_right _ hy) hxy
  · rintro ⟨hx, htop⟩
    constructor
    · rcases hx with hx | hx
      · exact mem_union_left T ⟨hx, fun y hy => htop y (mem_union_left T hy)⟩
      · exact mem_union_right _ hx
    · exact fun y hy => htop y (union_subset_union_left T (topmost_subset r S) hy)

end Crucible
