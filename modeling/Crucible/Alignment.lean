import Crucible.TraceDag

/-! # Aligning the foreground with a region

After a region is published, the foreground compares the ops that it dispatches with the first
ops of the region, and activates replay when all of them have come in a row.  After a mismatch
it goes back to the first op or to the second, and to no later one.

That finds every occurrence exactly if a prefix of these ops that ends in a shorter prefix goes
on with the op with which the shorter one goes on.
-/
namespace Crucible
open List RegionNode

def alignmentK : Nat := 5

/-- The hashes by which the foreground knows an op. -/
def TraceEntry.key (op : TraceEntry) : Nat × Nat := (op.schemaHash, op.shapeHash)

/-- The pending region with `alignment_pos_`, or how the search for it ended. -/
inductive Alignment where
  | pending (pos : Nat)
  | activated
  | dropped
deriving DecidableEq

/-- The number of ops that have to match. -/
def RegionNode.threshold (region : RegionNode) : Nat :=
  if region.ops.length < alignmentK then region.ops.length else alignmentK

/-- `try_align_`.  A region without a memory plan is dropped. -/
def tryAlign (region : RegionNode) (hasPlan : Bool) : Alignment → Nat × Nat → Alignment
  | .pending pos, op =>
    let pos :=
      if (region.ops[pos]?).map TraceEntry.key = some op then pos + 1
      else if (region.ops[0]?).map TraceEntry.key = some op then 1
      else 0
    if region.threshold ≤ pos then if hasPlan then .activated else .dropped
    else .pending pos
  | ended, _ => ended

/-- The ops that are dispatched after `consume_pending_region_`. -/
def align (region : RegionNode) (hasPlan : Bool) (stream : List (Nat × Nat)) : Alignment :=
  stream.foldl (tryAlign region hasPlan) (.pending 0)

def RegionNode.opening (region : RegionNode) : List (Nat × Nat) :=
  (region.ops.take region.threshold).map TraceEntry.key

/-! ### Prefixes that end a list -/

section
variable {α : Type} {p s : List α} {x : α} {pos : Nat}

/-- The lengths of the prefixes of `p` with which `s` ends. -/
def endings (p s : List α) : Set Nat := {k | k ≤ p.length ∧ p.take k <:+ s}

/-- A prefix that ends in a shorter one goes on in the same way. -/
def GoesOnAlike (p : List α) : Prop :=
  ∀ b j, 0 < b → b < j → j < p.length → p.take b <:+ p.take j → p[b]? = p[j]?

theorem succ_mem_endings {k : Nat} :
    k + 1 ∈ endings p (s ++ [x]) ↔ p[k]? = some x ∧ k ∈ endings p s := by
  show k + 1 ≤ p.length ∧ _ ↔ _ ∧ k ≤ p.length ∧ _
  by_cases hk : k < p.length
  · have hsuffix : p.take k ++ [p[k]] <:+ s ++ [x] ↔ p[k] = x ∧ p.take k <:+ s := by
      rw [← reverse_prefix, reverse_append, reverse_append, reverse_singleton, reverse_singleton,
        singleton_append, singleton_append, cons_prefix_cons, reverse_prefix]
    rw [getElem?_eq_getElem hk, Option.some_inj, ← take_concat_get' p k hk, hsuffix]
    exact ⟨fun h => ⟨h.2.1, hk.le, h.2.2⟩, fun h => ⟨hk, h.1, h.2.2⟩⟩
  · rw [getElem?_eq_none (by omega)]
    exact ⟨fun h => absurd h.1 hk, fun h => absurd h.1 (Option.some_ne_none x).symm⟩

variable [DecidableEq α]

/-- The next element goes on, starts again or matches nothing. -/
def nextPos (p : List α) (pos : Nat) (x : α) : Nat :=
  if p[pos]? = some x then pos + 1 else if p[0]? = some x then 1 else 0

theorem greatest_concat (hself : GoesOnAlike p) (h : IsGreatest (endings p s) pos)
    (hlt : pos < p.length) (x : α) :
    IsGreatest (endings p (s ++ [x])) (nextPos p pos x) := by
  rw [nextPos]
  have hnil : 0 ∈ endings p s := ⟨zero_le, nil_suffix⟩
  by_cases hnext : p[pos]? = some x
  · rw [if_pos hnext]
    refine ⟨succ_mem_endings.mpr ⟨hnext, h.1⟩, ?_⟩
    rintro (_ | k) hk
    · exact zero_le
    · exact Nat.succ_le_succ (h.2 (succ_mem_endings.mp hk).2)
  · rw [if_neg hnext]
    have hfirst : ∀ k, k + 1 ∈ endings p (s ++ [x]) → k = 0 := by
      intro k hk
      obtain ⟨hx, hmem⟩ := succ_mem_endings.mp hk
      by_contra hpos
      rcases (h.2 hmem).lt_or_eq with hless | rfl
      · refine hnext ((hself k pos (Nat.pos_of_ne_zero hpos) hless hlt ?_).symm.trans hx)
        refine suffix_of_suffix_length_le hmem.2 h.1.2 ?_
        rw [length_take, length_take]
        omega
      · exact hnext hx
    by_cases hstart : p[0]? = some x
    · rw [if_pos hstart]
      refine ⟨succ_mem_endings.mpr ⟨hstart, hnil⟩, ?_⟩
      rintro (_ | k) hk
      · exact zero_le
      · rw [hfirst k hk]
    · rw [if_neg hstart]
      refine ⟨⟨zero_le, nil_suffix⟩, ?_⟩
      rintro (_ | k) hk
      · exact le_rfl
      · obtain rfl := hfirst k hk
        exact absurd (succ_mem_endings.mp hk).1 hstart

end

/-! ### The search -/

variable {region : RegionNode} {hasPlan : Bool} {pos : Nat} {stream : List (Nat × Nat)}

theorem RegionNode.length_opening : region.opening.length = region.threshold := by
  rw [opening, length_map, length_take, threshold]
  split <;> omega

theorem align_concat (op : Nat × Nat) (hpos : align region hasPlan stream = .pending pos)
    (hlt : pos < region.threshold) :
    align region hasPlan (stream ++ [op]) =
      if region.threshold ≤ nextPos region.opening pos op then
        if hasPlan then .activated else .dropped
      else .pending (nextPos region.opening pos op) := by
  have hget : ∀ i < region.threshold, region.opening[i]? = (region.ops[i]?).map TraceEntry.key := by
    intro i hi
    rw [opening, getElem?_map, getElem?_take_of_lt hi]
  rw [align, foldl_concat, ← align, hpos, tryAlign, nextPos, hget pos hlt, hget 0 (by omega)]

/-- The foreground is where the stream says: the search is over once the opening occurs in it,
and until then it has matched as much of the opening as the stream ends with. -/
def Aligned (region : RegionNode) (hasPlan : Bool) (stream : List (Nat × Nat)) : Prop :=
  (region.opening <:+: stream →
    align region hasPlan stream = if hasPlan then .activated else .dropped) ∧
  (¬ region.opening <:+: stream → ∃ pos, align region hasPlan stream = .pending pos ∧
    IsGreatest (endings region.opening stream) pos)

theorem aligned_nil (hops : region.ops ≠ []) : Aligned region hasPlan [] := by
  have hne : region.opening ≠ [] := by
    have hlen := length_pos_of_ne_nil hops
    rw [← length_pos_iff, length_opening, threshold, alignmentK]
    split <;> omega
  refine ⟨fun hinfix => absurd (infix_nil.mp hinfix) hne, fun _ => ⟨0, rfl, ?_⟩⟩
  refine ⟨⟨zero_le, nil_suffix⟩, fun k hk => ?_⟩
  rcases take_eq_nil_iff.mp (suffix_nil.mp hk.2) with hzero | hnil
  · exact hzero.le
  · exact absurd hnil hne

theorem Aligned.concat (hself : GoesOnAlike region.opening) (h : Aligned region hasPlan stream)
    (op : Nat × Nat) : Aligned region hasPlan (stream ++ [op]) := by
  by_cases hseen : region.opening <:+: stream
  · refine ⟨fun _ => ?_, fun hnot => absurd (hseen.trans (prefix_append _ _).isInfix) hnot⟩
    rw [align, foldl_concat, ← align, h.1 hseen]
    cases hasPlan <;> rfl
  · obtain ⟨pos, hpos, hgreatest⟩ := h.2 hseen
    have hlt : pos < region.opening.length := by
      by_contra hge
      have hsuffix := hgreatest.1.2
      rw [take_of_length_le (by omega)] at hsuffix
      exact hseen hsuffix.isInfix
    have hnext := greatest_concat hself hgreatest hlt op
    rw [Aligned, align_concat op hpos (length_opening ▸ hlt)]
    generalize nextPos region.opening pos op = next at hnext ⊢
    have hdone : region.threshold ≤ next ↔ region.opening <:+: stream ++ [op] := by
      rw [← length_opening, infix_concat_iff, or_iff_left hseen]
      constructor
      · intro hge
        have hsuffix := hnext.1.2
        rwa [take_of_length_le hge] at hsuffix
      · exact fun hsuffix => hnext.2 ⟨le_rfl, by rwa [take_length]⟩
    refine ⟨fun hoccurs => if_pos (hdone.mpr hoccurs), fun hnot => ⟨next, ?_, hnext⟩⟩
    exact if_neg (mt hdone.mp hnot)

/-- A prefix that goes on in another way than a shorter one at its end is left too early. -/
theorem goesOnAlike_of_aligned (h : ∀ stream, Aligned region hasPlan stream) :
    GoesOnAlike region.opening := by
  intro b j hb hbj hj hsuffix
  by_contra hne
  obtain ⟨op, hop⟩ : ∃ op, region.opening[b]? = some op := ⟨_, getElem?_eq_getElem (by omega)⟩
  have hlen : (region.opening.take j).length = j := by
    rw [length_take]
    omega
  have hshort : ¬ region.opening <:+: region.opening.take j := fun hinfix => by
    have := hinfix.length_le
    omega
  obtain ⟨pos, hpos, hgreatest⟩ := (h (region.opening.take j)).2 hshort
  obtain rfl : pos = j := by
    refine le_antisymm ?_ (hgreatest.2 ⟨hj.le, suffix_rfl⟩)
    have hle := hgreatest.1.2.length_le
    rw [length_take] at hle
    omega
  have hone : nextPos region.opening pos op ≤ 1 := by
    rw [nextPos, if_neg fun heq => hne (hop.trans heq.symm)]
    split <;> omega
  have hmem : b + 1 ∈ endings region.opening (region.opening.take pos ++ [op]) :=
    succ_mem_endings.mpr ⟨hop, by omega, hsuffix⟩
  rw [length_opening] at hj
  have hstep := align_concat op hpos hj
  rw [if_neg (by omega)] at hstep
  by_cases hoccurs : region.opening <:+: region.opening.take pos ++ [op]
  · rw [(h _).1 hoccurs] at hstep
    cases hasPlan <;> cases hstep
  · obtain ⟨next, hnext, hgreatest'⟩ := (h _).2 hoccurs
    obtain rfl := Alignment.pending.inj (hnext.symm.trans hstep)
    have := hgreatest'.2 hmem
    omega

/-- **When the alignment is exact.**  For every stream, replay is activated with the first op
that completes an occurrence of the opening, and before that the position is the greatest
number of ops of the opening with which the stream ends, exactly if every prefix of the opening
that ends in a shorter one goes on in the same way. -/
theorem align_exact_iff (region : RegionNode) (hasPlan : Bool) (hops : region.ops ≠ []) :
    (∀ stream, Aligned region hasPlan stream) ↔ GoesOnAlike region.opening := by
  refine ⟨goesOnAlike_of_aligned, fun hself stream => ?_⟩
  induction stream using reverseRecOn with
  | nil => exact aligned_nil hops
  | append_singleton stream op ih => exact ih.concat hself op

def schemaRegion (schemas : List Nat) : RegionNode :=
  { contentHash := 0, ops := schemas.map fun schema => .ofWords schema [] 0 [] }

theorem align_exact_pair :
    align (schemaRegion [1, 2]) true [(1, 0), (1, 0), (2, 0)] = .activated := by
  have hself : GoesOnAlike (schemaRegion [1, 2]).opening := fun b j hb hbj hj => by
    exact absurd hj (by show ¬ j < 2; omega)
  exact (((align_exact_iff (schemaRegion [1, 2]) true (cons_ne_nil _ _)).mpr hself) _).1
    (suffix_append [(1, 0)] _).isInfix

/-- An op that comes three times before an opening in which it comes twice: the foreground
misses the occurrence. -/
theorem overlap_is_missed : (schemaRegion [1, 1, 2]).opening <:+: [(1, 0), (1, 0), (1, 0), (2, 0)] ∧
      align (schemaRegion [1, 1, 2]) true [(1, 0), (1, 0), (1, 0), (2, 0)] = .pending 0 :=
  ⟨(suffix_append [(1, 0)] _).isInfix, rfl⟩

end Crucible
