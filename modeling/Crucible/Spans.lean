import Mathlib.Order.Basic
import Mathlib.Data.List.Basic

/-! # Items laid out along an order

A queue keeps the order of its items when each item takes a stretch of one
coordinate and the stretches follow each other.  `Laid lo xs hi` says that the items
of `xs` take consecutive stretches of `[lo, hi]`, with gaps allowed.  A push at the
end, a pop at the front and a change of one item in place keep it, so an argument
about the order of a queue needs the stretch of one item at a time.
-/
namespace Crucible

/-- What it means for an item to fit between two points. -/
structure Span (ι α : Type) [Preorder ι] where
  fits : ι → ι → α → Prop
  le : ∀ {lo hi x}, fits lo hi x → lo ≤ hi
  mono : ∀ {lo lo' hi hi' x}, lo' ≤ lo → hi ≤ hi' → fits lo hi x → fits lo' hi' x

namespace Span
variable {ι α : Type} [Preorder ι] (s : Span ι α)

/-- The items take consecutive stretches from `lo` up to `hi`. -/
inductive Laid : ι → List α → ι → Prop
  | nil {lo hi} (h : lo ≤ hi) : Laid lo [] hi
  | cons {lo mid hi x xs} (h : s.fits lo mid x) (rest : Laid mid xs hi) : Laid lo (x :: xs) hi

variable {s} {lo lo' mid hi hi' : ι} {x y : α} {xs ys : List α}

namespace Laid

theorem le (h : s.Laid lo xs hi) : lo ≤ hi := by
  induction h with
  | nil h => exact h
  | cons h _ ih => exact le_trans (s.le h) ih

theorem mono_left (h : s.Laid lo xs hi) (hlo : lo' ≤ lo) : s.Laid lo' xs hi := by
  cases h with
  | nil h => exact .nil (le_trans hlo h)
  | cons h rest => exact .cons (s.mono hlo (le_refl _) h) rest

theorem mono_right (h : s.Laid lo xs hi) (hhi : hi ≤ hi') : s.Laid lo xs hi' := by
  induction h with
  | nil h => exact .nil (le_trans h hhi)
  | cons h _ ih => exact .cons h (ih hhi)

theorem append (h : s.Laid lo xs mid) (h' : s.Laid mid ys hi) : s.Laid lo (xs ++ ys) hi := by
  induction h with
  | nil h => exact h'.mono_left h
  | cons h _ ih => exact .cons h (ih h')

theorem singleton (h : s.fits lo hi x) : s.Laid lo [x] hi := .cons h (.nil (le_refl _))

theorem concat (h : s.Laid lo xs mid) (hx : s.fits mid hi x) : s.Laid lo (xs ++ [x]) hi :=
  h.append (singleton hx)

theorem of_cons (h : s.Laid lo (x :: xs) hi) : ∃ mid, s.fits lo mid x ∧ s.Laid mid xs hi := by
  cases h with
  | cons h rest => exact ⟨_, h, rest⟩

theorem split (h : s.Laid lo (xs ++ ys) hi) : ∃ mid, s.Laid lo xs mid ∧ s.Laid mid ys hi := by
  induction xs generalizing lo with
  | nil => exact ⟨lo, .nil (le_refl _), h⟩
  | cons x xs ih =>
    obtain ⟨mid, hx, hrest⟩ := h.of_cons
    obtain ⟨mid', hxs, hys⟩ := ih hrest
    exact ⟨mid', .cons hx hxs, hys⟩

theorem drop (h : s.Laid lo xs hi) (n : Nat) : s.Laid lo (xs.drop n) hi := by
  rw [← List.take_append_drop n xs] at h
  obtain ⟨mid, hfront, hback⟩ := h.split
  exact hback.mono_left hfront.le

theorem mem (h : s.Laid lo xs hi) (hx : x ∈ xs) : s.fits lo hi x := by
  induction h with
  | nil h => exact nomatch hx
  | cons h hrest ih =>
    rcases List.mem_cons.mp hx with rfl | hx
    · exact s.mono (le_refl _) hrest.le h
    · exact s.mono (s.le h) (le_refl _) (ih hx)

theorem remove (h : s.Laid lo (xs ++ x :: ys) hi) : s.Laid lo (xs ++ ys) hi := by
  obtain ⟨mid, hxs, hrest⟩ := h.split
  obtain ⟨mid', hx, hys⟩ := hrest.of_cons
  exact hxs.append (hys.mono_left (s.le hx))

theorem imp {t : Span ι α} (h : s.Laid lo xs hi)
    (himp : ∀ lo hi x, s.fits lo hi x → t.fits lo hi x) : t.Laid lo xs hi := by
  induction h with
  | nil h => exact .nil h
  | cons h _ ih => exact .cons (himp _ _ _ h) ih

end Laid
end Span
end Crucible
