import Mathlib.Algebra.Order.Ring.Nat

/-! # Saturating arithmetic that is recorded

A computation that may fail and that folds integer constants in a fixed-width type.  A fold
clamps its result to the range of the type; the exact result goes to a record, so that a
statement can be conditional on what the folds were.  `Yields` is the rule to reason with: the
computation returns, the value it returns has one property always, and another one if every
recorded result is as required.
-/
namespace Crucible
namespace Saturating

def InRange (v : Int) : Prop := -2 ^ 63 ≤ v ∧ v < 2 ^ 63

instance (v : Int) : Decidable (InRange v) := inferInstanceAs (Decidable (_ ∧ _))

/-- The nearest value of the type. -/
def clamp (v : Int) : Int := max (-2 ^ 63) (min v (2 ^ 63 - 1))

theorem clamp_inRange (v : Int) : InRange (clamp v) := by
  rw [InRange, clamp]
  omega

theorem clamp_of_inRange {v : Int} (h : InRange v) : clamp v = v := by
  rw [InRange] at h
  rw [clamp]
  omega

theorem natAbs_clamp_le (v : Int) : (clamp v).natAbs ≤ v.natAbs := by
  rw [clamp]
  omega

/-- A computation that may fail with an `ε`, with the exact results of its folds. -/
def Fold (ε α : Type) := Except ε (α × List Int)

namespace Fold
variable {ε α β : Type}

def fail (e : ε) : Fold ε α := .error e

/-- A fold: the clamped result, with the exact one in the record. -/
def folded (v : Int) : Fold ε Int := .ok (clamp v, [v])

/-- One part after another; the record goes on. -/
def andThen (x : Fold ε α) (f : α → Fold ε β) : Fold ε β :=
  match x with
  | .error e => .error e
  | .ok (a, log) =>
    match f a with
    | .error e => .error e
    | .ok (b, log') => .ok (b, log ++ log')

instance : Monad (Fold ε) where
  pure a := .ok (a, [])
  bind := andThen

variable {a : α} {log : List Int}

theorem bind_ok {x : Fold ε α} {f : α → Fold ε β} {b : β} {log' : List Int}
    (hx : x = .ok (a, log)) (hf : f a = .ok (b, log')) : x >>= f = .ok (b, log ++ log') := by
  show andThen x f = _
  simp only [hx, andThen, hf]
  rfl

theorem bind_fail {x : Fold ε α} {f : α → Fold ε β} {e : ε}
    (hx : x = .ok (a, log)) (hf : f a = .error e) : x >>= f = .error e := by
  show andThen x f = _
  simp only [hx, andThen, hf]
  rfl

theorem pure_then (a : α) (f : α → Fold ε β) : (pure a >>= f) = f a := by
  cases hf : f a with
  | error e => exact bind_fail rfl hf
  | ok r => exact bind_ok rfl hf

/-- The computation returns a value of which `W` holds, and `Q` as well if all the folds are as
`P` says. -/
def Yields (P : Int → Prop) (x : Fold ε α) (W Q : α → Prop) : Prop :=
  ∃ a log, x = .ok (a, log) ∧ W a ∧ ((∀ v ∈ log, P v) → Q a)

variable {P : Int → Prop} {W Q : α → Prop} {W' R : β → Prop} {x : Fold ε α} {f : α → Fold ε β}

theorem Yields.pure (hW : W a) (hQ : Q a) : Yields P (pure a : Fold ε α) W Q :=
  ⟨a, [], rfl, hW, fun _ => hQ⟩

theorem Yields.bind (hx : Yields P x W Q)
    (hf : ∀ a, W a → Yields P (f a) W' fun b => Q a → R b) : Yields P (x >>= f) W' R := by
  obtain ⟨a, log, hxa, hW, hQ⟩ := hx
  obtain ⟨b, log', hfb, hW', hR⟩ := hf a hW
  refine ⟨b, log ++ log', bind_ok hxa hfb, hW', fun hlog => ?_⟩
  have hleft : ∀ v ∈ log, P v := fun v hv => hlog v (List.mem_append_left _ hv)
  have hrig : ∀ v ∈ log', P v := fun v hv => hlog v (List.mem_append_right _ hv)
  exact hR hrig (hQ hleft)

theorem Yields.imp {W₁ Q₁ : α → Prop} (h : Yields P x W Q) (hW : ∀ a, W a → W₁ a)
    (hQ : ∀ a, W a → Q a → Q₁ a) : Yields P x W₁ Q₁ := by
  obtain ⟨a, log, hx, hWa, hQa⟩ := h
  exact ⟨a, log, hx, hW a hWa, fun hlog => hQ a hWa (hQa hlog)⟩

theorem Yields.weaken {Q₁ : α → Prop} (h : Yields P x W Q) (hQ : ∀ a, W a → Q a → Q₁ a) :
    Yields P x W Q₁ := h.imp (fun _ h => h) hQ

theorem Yields.folded (v : Int) :
    Yields P (folded v : Fold ε Int) (fun w => w = clamp v) (fun _ => P v) :=
  ⟨clamp v, [v], rfl, rfl, fun h => h v (List.mem_singleton_self v)⟩

theorem Yields.of_eq (h : Yields P x W Q) (hx : x = .ok (a, log)) :
    W a ∧ ((∀ v ∈ log, P v) → Q a) := by
  obtain ⟨a', log', hx', hW, hQ⟩ := h
  cases hx'.symm.trans hx
  exact ⟨hW, hQ⟩

end Fold
end Saturating
end Crucible
