import Mathlib.Order.Nat

/-! # Contracting classes of an acyclic graph

The vertices of an acyclic graph fall into classes, each with a first vertex below all the
others.  Contracting every class to one vertex leaves an acyclic graph exactly if no edge
that enters a class at another vertex than the first comes from a class that can be reached
from it: a cycle that entered every class at its first vertex would be one of the graph.
-/
namespace Crucible

open Relation

variable {α β : Type} (edge : α → α → Prop) (cls : α → β)

def Contracted (a b : β) : Prop := a ≠ b ∧ ∃ d u, edge d u ∧ cls d = a ∧ cls u = b

/-- No class can be reached from itself. -/
def ContractsAcyclic : Prop := ∀ a, ¬ TransGen (Contracted edge cls) a a

variable {edge cls}

/-- The reachable classes are those of the vertices that edges and classes lead to. -/
theorem contracted_reaches_iff {x y : α} : ReflTransGen (Contracted edge cls) (cls x) (cls y) ↔
      ReflTransGen (fun x y => edge x y ∨ cls x = cls y) x y := by
  constructor
  · have hall : ∀ b, ReflTransGen (Contracted edge cls) (cls x) b → ∀ y, cls y = b →
        ReflTransGen (fun x y => edge x y ∨ cls x = cls y) x y := by
      intro b hreach
      induction hreach with
      | refl => exact fun y hy => ReflTransGen.single (.inr hy.symm)
      | tail _ hstep ih =>
        intro y hy
        obtain ⟨-, d, u, hedge, hd, hu⟩ := hstep
        exact ((ih d hd).tail (.inl hedge)).tail (.inr (hu.trans hy.symm))
    exact fun hreach => hall _ hreach y rfl
  · intro hreach
    induction hreach with
    | refl => exact ReflTransGen.refl
    | @tail w z _ hstep ih =>
      by_cases hsame : cls w = cls z
      · rw [← hsame]
        exact ih
      · rcases hstep with hedge | hcls
        · exact ih.tail ⟨hsame, w, z, hedge, rfl, rfl⟩
        · exact absurd hcls hsame

/-- **Only the edges that enter a class beside its first vertex can close a cycle.** -/
theorem contractsAcyclic_iff {rank : α → Nat} {first : α → Prop}
    (hrank : ∀ d u, edge d u → rank d < rank u)
    (hlow : ∀ w x, first w → cls w = cls x → rank w ≤ rank x)
    (hexis : ∀ x, ∃ w, first w ∧ cls w = cls x) :
    ContractsAcyclic edge cls ↔ ∀ d u, edge d u → cls d ≠ cls u → ¬ first u →
      ¬ ReflTransGen (Contracted edge cls) (cls u) (cls d) := by
  constructor
  · intro hacy d u hedge hne _ hreach
    have hback : Contracted edge cls (cls d) (cls u) := ⟨hne, d, u, hedge, rfl, rfl⟩
    exact hacy (cls u) (TransGen.tail' hreach hback)
  · intro hent
    -- an edge on a cycle enters its class at the first vertex, so the first vertices rise
    have hris : ∀ a b, Contracted edge cls a b → ReflTransGen (Contracted edge cls) b a →
        ∀ w, first w → cls w = a → ∃ w', first w' ∧ cls w' = b ∧ rank w < rank w' := by
      rintro a b ⟨hne, d, u, hedge, rfl, rfl⟩ hreach w hw hcls
      have henter : first u := by
        by_contra hoth
        exact hent d u hedge hne hoth hreach
      exact ⟨u, henter, rfl, (hlow w d hw hcls).trans_lt (hrank d u hedge)⟩
    have hcyc : ∀ a b, TransGen (Contracted edge cls) a b → ReflTransGen (Contracted edge cls) b a →
        ∀ w, first w → cls w = a → ∃ w', first w' ∧ cls w' = b ∧ rank w < rank w' := by
      intro a b hpath
      induction hpath with
      | single hstep => exact hris _ _ hstep
      | tail hpath hstep ih =>
        intro hreach w hw hcls
        obtain ⟨v, hv, hvcls, hwv⟩ := ih (hreach.head hstep) w hw hcls
        obtain ⟨w', hw', hwcls', hvw'⟩ :=
          hris _ _ hstep (hreach.trans hpath.to_reflTransGen) v hv hvcls
        exact ⟨w', hw', hwcls', hwv.trans hvw'⟩
    intro a hpath
    obtain ⟨x, rfl⟩ : ∃ x, cls x = a := by
      obtain ⟨b, ⟨-, d, -, -, hd, -⟩, -⟩ := TransGen.head'_iff.mp hpath
      exact ⟨d, hd⟩
    obtain ⟨w, hw, hcls⟩ := hexis x
    obtain ⟨w', hw', hcls', hlt⟩ := hcyc _ _ hpath ReflTransGen.refl w hw hcls
    exact absurd (hlow w' w hw' (hcls'.trans hcls.symm)) (not_le.mpr hlt)

end Crucible
