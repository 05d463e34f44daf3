import Crucible.CountingSort
import Crucible.TraceBuild

/-! # The adjacency arrays of a trace

`build_csr` sorts the edges of a trace twice, by source and by destination, with an array of
`num_ops + 1` offsets each.  The length is a 32-bit sum, which is zero for the largest number of
ops: the sums of the counts then go through an array that has no entries.
-/
namespace Crucible
open List CountingSort

/-- The edges in one order, with the offset of the slice of each op. -/
structure Adjacency where
  offsets : Nat → Nat
  edges : Nat → Edge

/-- The counting sort of `build_csr` by one end of the edges.  The source counts an edge of op `i`
at entry `i + 1`, so that the sums in place are the offsets. -/
def Adjacency.sortBy (op : Edge → Nat) (junk : Nat → Edge) (edges : List Edge) : Adjacency :=
  let off := CountingSort.offsets (counts (fun e => some (op e)) edges)
  { offsets := off, edges := (scatter (fun e => some (op e)) off junk edges).out }

structure Csr where
  fwd : Adjacency
  rev : Adjacency

/-- `none` stands for an access behind the end of the offsets. -/
def buildCsr (junk : Nat → Edge) (edges : List Edge) (numOps : Nat) : Option Csr :=
  -- without ops there are no arrays, and no op whose slice is read
  if numOps = 0 then some ⟨⟨fun _ => 0, junk⟩, ⟨fun _ => 0, junk⟩⟩
  else if wrap32 (numOps + 1) ≤ numOps then none
  else some ⟨.sortBy Edge.src junk edges, .sortBy Edge.dst junk edges⟩

/-- The array holds the edges of the list by their op, and those of one op in their own order. -/
structure Adjacency.Sorted (op : Edge → Nat) (edges : List Edge) (numOps : Nat) (a : Adjacency) :
    Prop where
  perm : (range edges.length).map a.edges ~ edges
  slice : ∀ i < numOps, CountingSort.slice a.offsets a.edges i = edges.filter fun e => op e == i
  mono : ∀ i < numOps, a.offsets i ≤ a.offsets (i + 1)
  first : a.offsets 0 = 0
  last : a.offsets numOps = edges.length

section

variable (op : Edge → Nat) (junk : Nat → Edge) (edges : List Edge)

theorem Adjacency.sortBy_slice (i : Nat) : CountingSort.slice (sortBy op junk edges).offsets
    (sortBy op junk edges).edges i = edges.filter fun e => op e == i := by
  rw [sortBy, slice_scatter, bucket]
  simp

/-- The slices of the first ops make up the array up to the next offset. -/
theorem Adjacency.map_sortBy (n : Nat) : (range ((sortBy op junk edges).offsets n)).map
    (sortBy op junk edges).edges ~ edges.filter fun e => op e < n := by
  induction n with
  | zero => simp [sortBy, CountingSort.offsets]
  | succ n ih =>
    have hle : (sortBy op junk edges).offsets n ≤ (sortBy op junk edges).offsets (n + 1) :=
      offsets_mono _ n.le_succ
    have hsplit := filter_append_perm (fun e => op e < n) (edges.filter fun e => op e < n + 1)
    rw [filter_filter, filter_filter] at hsplit
    have hlow : (edges.filter fun e => op e < n && op e < n + 1) =
        edges.filter fun e => op e < n :=
      filter_congr fun e _ => by grind
    have hnew : (edges.filter fun e => !(op e < n) && op e < n + 1) =
        edges.filter fun e => op e == n :=
      filter_congr fun e _ => by grind
    rw [hlow, hnew, ← sortBy_slice op junk] at hsplit
    refine Perm.trans ?_ hsplit
    rw [← Nat.add_sub_of_le hle, range_add, map_append, map_map]
    exact ih.append_right _

variable {op edges}

theorem Adjacency.sorted_sortBy {numOps : Nat} (h : ∀ e ∈ edges, op e < numOps) :
    (sortBy op junk edges).Sorted op edges numOps := by
  have hperm := map_sortBy op junk edges numOps
  rw [filter_eq_self.mpr fun e he => decide_eq_true (h e he)] at hperm
  have hlast : (sortBy op junk edges).offsets numOps = edges.length := by
    simpa using hperm.length_eq
  exact ⟨hlast ▸ hperm, fun i _ => sortBy_slice op junk edges i,
    fun i _ => offsets_mono _ i.le_succ, rfl, hlast⟩

end

/-- **The arrays are built and sorted unless the number of ops is the largest one.** -/
theorem buildCsr_sorts_iff (junk : Nat → Edge) {edges : List Edge} {numOps : Nat}
    (hops : numOps ≤ u32Max) (h : ∀ e ∈ edges, e.src < numOps ∧ e.dst < numOps) :
    (∃ csr, buildCsr junk edges numOps = some csr ∧ csr.fwd.Sorted Edge.src edges numOps ∧
      csr.rev.Sorted Edge.dst edges numOps) ↔ numOps ≠ u32Max := by
  constructor
  · rintro ⟨csr, hcsr, -⟩ rfl
    exact absurd hcsr (by simp [buildCsr, u32Max, wrap32])
  · intro hne
    by_cases hzero : numOps = 0
    · subst hzero
      obtain rfl : edges = [] := eq_nil_iff_forall_not_mem.mpr fun e he => by
        simpa using (h e he).1
      refine ⟨_, if_pos rfl, ?_, ?_⟩ <;> constructor <;> simp
    · have hwrap : wrap32 (numOps + 1) = numOps + 1 := by
        rw [wrap32, Nat.mod_eq_of_lt (by rw [u32Max] at hops hne; omega)]
      have hbuilt : buildCsr junk edges numOps =
          some ⟨.sortBy Edge.src junk edges, .sortBy Edge.dst junk edges⟩ := by
        rw [buildCsr, if_neg hzero, hwrap, if_neg (by omega)]
      exact ⟨_, hbuilt, Adjacency.sorted_sortBy junk fun e he => (h e he).1,
        Adjacency.sorted_sortBy junk fun e he => (h e he).2⟩

/-- The edges of two ops, one of them from an op to itself. -/
theorem buildCsr_sorts_two : (∃ csr,
    buildCsr (fun _ => ⟨0, 0, 0, 0, .alias⟩) [⟨1, 0, 0, 0, .dataFlow⟩, ⟨0, 0, 0, 0, .dataFlow⟩] 2 =
      some csr ∧
    csr.fwd.Sorted Edge.src [⟨1, 0, 0, 0, .dataFlow⟩, ⟨0, 0, 0, 0, .dataFlow⟩] 2 ∧
    csr.rev.Sorted Edge.dst [⟨1, 0, 0, 0, .dataFlow⟩, ⟨0, 0, 0, 0, .dataFlow⟩] 2) :=
  (buildCsr_sorts_iff _ (by decide) (by decide)).mpr (by decide)

theorem buildCsr_largest : buildCsr (fun _ => ⟨0, 0, 0, 0, .alias⟩) [] u32Max = none := by
  simp [buildCsr, u32Max, wrap32]

end Crucible
