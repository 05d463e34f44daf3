import Mathlib.Algebra.BigOperators.Group.Finset.Basic
import Mathlib.Data.List.Perm.Basic
import Mathlib.Order.Interval.Finset.Nat

/-! # Tilings of a pool by free and owned blocks

An allocator that hands out ranges of one growing pool keeps one invariant: the
free blocks and the blocks of the present owners share no byte, lie inside the
pool, and start and end on the alignment.  `Tiling` states it, over any type of
owners, and the lemmas below are the moves an allocator can make.  A block that an allocator
loses track of only shrinks the tiling (`sublist`, `forget`).
-/
namespace Crucible
open List

/-- A half-open byte range `[offset, offset + size)` of a pool. -/
structure Block where
  offset : Nat
  size : Nat
deriving DecidableEq

namespace Block

def stop (b : Block) : Nat := b.offset + b.size

/-- The byte `x` lies in the block. -/
def Covers (b : Block) (x : Nat) : Prop := b.offset ≤ x ∧ x < b.stop

/-- No byte in common.  An empty block is disjoint from every block. -/
def Disjoint (a b : Block) : Prop :=
  a.size = 0 ∨ b.size = 0 ∨ a.stop ≤ b.offset ∨ b.stop ≤ a.offset

/-- Inside a pool of `limit` bytes, at both ends on the alignment. -/
def Within (align limit : Nat) (b : Block) : Prop :=
  b.stop ≤ limit ∧ align ∣ b.offset ∧ align ∣ b.size

variable {a b : Block}

theorem Disjoint.symm (h : a.Disjoint b) : b.Disjoint a := by
  unfold Disjoint at *
  omega

theorem Disjoint.not_covers (h : a.Disjoint b) {x : Nat} (ha : a.Covers x) : ¬ b.Covers x := by
  unfold Disjoint at h
  unfold Covers stop at *
  omega

theorem Disjoint.of_le {c : Block} (h : a.Disjoint b) (hlo : a.offset ≤ c.offset)
    (hhi : c.stop ≤ a.stop) : c.Disjoint b := by
  unfold Disjoint stop at *
  omega

theorem Within.mono {align limit limit' : Nat} (h : b.Within align limit)
    (hle : limit ≤ limit') : b.Within align limit' :=
  ⟨h.1.trans hle, h.2⟩

end Block

/-- The invariant of a pool of `limit` bytes: the blocks of `free` and of the
owners in `own` are inside the pool, aligned, and pairwise disjoint. -/
structure Tiling {ι : Type} (align limit : Nat) (free : List Block) (own : Set ι)
    (blk : ι → Block) : Prop where
  free_in : ∀ b ∈ free, b.Within align limit
  own_in : ∀ i ∈ own, (blk i).Within align limit
  free_free : free.Pairwise Block.Disjoint
  own_free : ∀ i ∈ own, ∀ b ∈ free, (blk i).Disjoint b
  own_own : ∀ i ∈ own, ∀ j ∈ own, i ≠ j → (blk i).Disjoint (blk j)

namespace Tiling
variable {ι : Type} {align limit : Nat} {free free' : List Block} {own own' : Set ι}
  {blk blk' : ι → Block}

theorem empty (align : Nat) (blk : ι → Block) : Tiling align 0 [] (∅ : Set ι) blk where
  free_in := by simp
  own_in := by simp
  free_free := List.Pairwise.nil
  own_free := by simp
  own_own := by simp

section
variable (h : Tiling align limit free own blk)
include h

theorem congr (hblk : ∀ i ∈ own, blk' i = blk i) : Tiling align limit free own blk' where
  free_in := h.free_in
  own_in := fun i hi => by rw [hblk i hi]; exact h.own_in i hi
  free_free := h.free_free
  own_free := fun i hi b hb => by rw [hblk i hi]; exact h.own_free i hi b hb
  own_own := fun i hi j hj hij => by rw [hblk i hi, hblk j hj]; exact h.own_own i hi j hj hij

theorem forget (hsub : own' ⊆ own) : Tiling align limit free own' blk where
  free_in := h.free_in
  own_in := fun i hi => h.own_in i (hsub hi)
  free_free := h.free_free
  own_free := fun i hi => h.own_free i (hsub hi)
  own_own := fun i hi j hj => h.own_own i (hsub hi) j (hsub hj)

theorem sublist (hsub : free'.Sublist free) : Tiling align limit free' own blk where
  free_in := fun b hb => h.free_in b (hsub.subset hb)
  own_in := h.own_in
  free_free := h.free_free.sublist hsub
  own_free := fun i hi b hb => h.own_free i hi b (hsub.subset hb)
  own_own := h.own_own

theorem perm (hp : free.Perm free') : Tiling align limit free' own blk where
  free_in := fun b hb => h.free_in b (hp.mem_iff.mpr hb)
  own_in := h.own_in
  free_free := (hp.pairwise_iff fun hab => Block.Disjoint.symm hab).mp h.free_free
  own_free := fun i hi b hb => h.own_free i hi b (hp.mem_iff.mpr hb)
  own_own := h.own_own

end

variable {j i : ι}

/-- A new owner `j`, whose block shares no byte with any block of the tiling. -/
theorem insert (h : Tiling align limit free own blk) (hin : (blk j).Within align limit)
    (hfree : ∀ b ∈ free, (blk j).Disjoint b) (hown : ∀ i ∈ own, i ≠ j → (blk j).Disjoint (blk i)) :
    Tiling align limit free (insert j own) blk where
  free_in := h.free_in
  own_in := by
    rintro i (rfl | hi)
    · exact hin
    · exact h.own_in i hi
  free_free := h.free_free
  own_free := by
    rintro i (rfl | hi)
    · exact hfree
    · exact h.own_free i hi
  own_own := by
    rintro i (rfl | hi) k (rfl | hk) hik
    · exact absurd rfl hik
    · exact hown k hk (Ne.symm hik)
    · exact (hown i hi hik).symm
    · exact h.own_own i hi k hk hik

theorem release (h : Tiling align limit free own blk) (hi : i ∈ own) :
    Tiling align limit (free ++ [blk i]) (own \ {i}) blk where
  free_in := by
    intro b hb
    rcases mem_append.mp hb with hb | hb
    · exact h.free_in b hb
    · rw [mem_singleton.mp hb]; exact h.own_in i hi
  own_in := fun k hk => h.own_in k hk.1
  free_free := by
    refine pairwise_append.mpr ⟨h.free_free, pairwise_singleton _ _, ?_⟩
    intro a ha b hb
    rw [mem_singleton.mp hb]
    exact (h.own_free i hi a ha).symm
  own_free := by
    intro k hk b hb
    rcases mem_append.mp hb with hb | hb
    · exact h.own_free k hk.1 b hb
    · rw [mem_singleton.mp hb]
      exact h.own_own k hk.1 i hi hk.2
  own_own := fun k hk l hl => h.own_own k hk.1 l hl.1

/-- A new owner takes the front of a free block, and the rest of it stays free. -/
theorem takeSplit {b : Block} {rest : List Block} {k : Nat}
    (h : Tiling align limit (b :: rest) own blk) (hj : blk j = ⟨b.offset, k⟩)
    (hk : k ≤ b.size) (hdvd : align ∣ k) :
    Tiling align limit (⟨b.offset + k, b.size - k⟩ :: rest) (Insert.insert j own) blk := by
  have hb := h.free_in b mem_cons_self
  have hrest := pairwise_cons.mp h.free_free
  have hback : ∀ c : Block, b.Disjoint c → (⟨b.offset + k, b.size - k⟩ : Block).Disjoint c :=
    fun c hc => hc.of_le (by simp) (by simp [Block.stop]; omega)
  have hfront : ∀ c : Block, b.Disjoint c → (blk j).Disjoint c := by
    intro c hc
    rw [hj]
    exact hc.of_le le_rfl (by simp [Block.stop]; omega)
  have hshr : Tiling align limit (⟨b.offset + k, b.size - k⟩ :: rest) own blk := by
    refine ⟨?_, h.own_in, ?_, ?_, h.own_own⟩
    · intro c hc
      rcases mem_cons.mp hc with rfl | hc
      · refine ⟨?_, ?_, ?_⟩
        · have := hb.1
          simp only [Block.stop] at *
          omega
        · exact Nat.dvd_add hb.2.1 hdvd
        · exact Nat.dvd_sub hb.2.2 hdvd
      · exact h.free_in c (mem_cons_of_mem _ hc)
    · exact pairwise_cons.mpr ⟨fun c hc => hback c (hrest.1 c hc), hrest.2⟩
    · intro i hi c hc
      rcases mem_cons.mp hc with rfl | hc
      · exact (hback _ (h.own_free i hi b mem_cons_self).symm).symm
      · exact h.own_free i hi c (mem_cons_of_mem _ hc)
  refine hshr.insert ?_ ?_ ?_
  · rw [hj]
    refine ⟨?_, hb.2.1, hdvd⟩
    have := hb.1
    simp only [Block.stop] at *
    omega
  · intro c hc
    rcases mem_cons.mp hc with rfl | hc
    · rw [hj]
      exact .inr (.inr (.inl le_rfl))
    · exact hfront c (hrest.1 c hc)
  · exact fun i hi _ => hfront _ (h.own_free i hi b mem_cons_self).symm

theorem takeExact {b : Block} {rest : List Block}
    (h : Tiling align limit (b :: rest) own blk) (hj : blk j = b) :
    Tiling align limit rest (Insert.insert j own) blk :=
  (h.takeSplit (k := b.size) hj le_rfl
    (h.free_in b mem_cons_self).2.2).sublist (sublist_cons_self _ _)

/-- A new owner takes the front of the block of the leaving owner `i`, and the
rest of that block becomes free. -/
theorem transfer {k : Nat} (h : Tiling align limit free own blk) (hi : i ∈ own)
    (hj : blk j = ⟨(blk i).offset, k⟩) (hk : k ≤ (blk i).size) (hdvd : align ∣ k) :
    Tiling align limit (free ++ [⟨(blk i).offset + k, (blk i).size - k⟩])
      (Insert.insert j (own \ {i})) blk := by
  have hperm : (free ++ [blk i]).Perm (blk i :: free) := perm_append_singleton _ _
  exact (((h.release hi).perm hperm).takeSplit hj hk hdvd).perm
    (perm_append_singleton _ _).symm

theorem extend {k : Nat} (h : Tiling align limit free own blk)
    (hj : blk j = ⟨limit, k⟩) (hlim : align ∣ limit) (hdvd : align ∣ k) :
    Tiling align (limit + k) free (Insert.insert j own) blk := by
  have hwide : Tiling align (limit + k) free own blk :=
    ⟨fun b hb => (h.free_in b hb).mono (Nat.le_add_right _ _),
      fun i hi => (h.own_in i hi).mono (Nat.le_add_right _ _),
      h.free_free, h.own_free, h.own_own⟩
  have hbel : ∀ c : Block, c.Within align limit → (blk j).Disjoint c := by
    intro c hc
    rw [hj]
    exact .inr (.inr (.inr hc.1))
  refine hwide.insert ?_ (fun b hb => hbel b (h.free_in b hb))
    (fun i hi _ => hbel _ (h.own_in i hi))
  rw [hj]
  exact ⟨le_rfl, hlim, hdvd⟩

/-- **The blocks of the owners fit the pool together.** -/
theorem sum_size_le (h : Tiling align limit free own blk) {owners : Finset ι}
    (hown : ∀ i ∈ owners, i ∈ own) : ∑ i ∈ owners, (blk i).size ≤ limit := by
  classical
  have hapart : ∀ i ∈ owners, ∀ j ∈ owners, i ≠ j → Disjoint
      (Finset.Ico (blk i).offset (blk i).stop) (Finset.Ico (blk j).offset (blk j).stop) := by
    intro i hi j hj hij
    refine Finset.disjoint_left.mpr fun x hxi hxj => ?_
    rw [Finset.mem_Ico] at hxi hxj
    exact (h.own_own i (hown i hi) j (hown j hj) hij).not_covers hxi hxj
  calc ∑ i ∈ owners, (blk i).size
      = ∑ i ∈ owners, (Finset.Ico (blk i).offset (blk i).stop).card := by
        simp [Block.stop]
    _ = (owners.biUnion fun i => Finset.Ico (blk i).offset (blk i).stop).card :=
        (Finset.card_biUnion hapart).symm
    _ ≤ (Finset.range limit).card := by
        refine Finset.card_le_card fun x hx => ?_
        obtain ⟨i, hi, hx⟩ := Finset.mem_biUnion.mp hx
        exact Finset.mem_range.mpr
          ((Finset.mem_Ico.mp hx).2.trans_le (h.own_in i (hown i hi)).1)
    _ = limit := Finset.card_range limit

end Tiling
end Crucible
