import Mathlib.Data.List.Basic
import Mathlib.Logic.Relation

/-! # The causal order of an execution

An execution is a list of events, each at one node.  An event comes directly before a
later one if both are at the same node, or if the later one receives what the earlier one
sent.  The causal order is the transitive closure.  It speaks of positions and messages
only, so that clocks can be measured against it.
-/
namespace Crucible

variable {ε ι : Type} (node : ε → ι) (sent : Nat → Nat → Prop) (events : List ε)

/-- Program order and message order. -/
def DirectlyBefore (a b : Nat) : Prop :=
  a < b ∧ ∃ e f, events[a]? = some e ∧ events[b]? = some f ∧ (node e = node f ∨ sent a b)

def HappenedBefore (a b : Nat) : Prop := Relation.TransGen (DirectlyBefore node sent events) a b

variable {node sent events}

theorem HappenedBefore.lt {a b : Nat} (h : HappenedBefore node sent events a b) : a < b := by
  induction h with
  | single h => exact h.1
  | tail _ h ih => exact Nat.lt_trans ih h.1

/-- What happened before an event did so through an event directly before it. -/
theorem happenedBefore_iff {a b : Nat} : HappenedBefore node sent events a b ↔
      ∃ d, DirectlyBefore node sent events d b ∧ (a = d ∨ HappenedBefore node sent events a d) := by
  constructor
  · intro h
    obtain ⟨d, hd, hdir⟩ := Relation.TransGen.tail'_iff.mp h
    refine ⟨d, hdir, ?_⟩
    rcases Relation.reflTransGen_iff_eq_or_transGen.mp hd with heq | hbef
    · exact .inl heq.symm
    · exact .inr hbef
  · rintro ⟨d, hdir, rfl | hbef⟩
    · exact Relation.TransGen.single hdir
    · exact Relation.TransGen.tail hbef hdir

end Crucible
