import Mathlib.Algebra.Order.BigOperators.Group.List
import Crucible.MemoryPlan

/-! # One op of the sweep keeps the pool tiled

The owners of the pool are the slots that hold a block.  This module follows the
three phases of one op over unbounded integers, where no address wraps: the direct
match hands blocks of dying slots to born slots, the left-over dying slots give
their blocks back, and the left-over born slots are placed.  Each phase is a step
lemma of `Tiled` and an induction over its loop.
-/
namespace Crucible
open List

namespace Sweep
variable {size : Nat → Nat} {own own' : Set Nat} {st : Sweep}

def blk (st : Sweep) (size : Nat → Nat) (s : Nat) : Block := ⟨st.offset s, size s⟩

/-- The sweep's invariant: the free list and the blocks of the owners tile the pool. -/
structure Tiled (size : Nat → Nat) (own : Set Nat) (st : Sweep) : Prop where
  tiling : Tiling alignment st.poolEnd st.freeList own (st.blk size)
  end_dvd : alignment ∣ st.poolEnd

@[simp] theorem setOffset_poolEnd (st : Sweep) (s o : Nat) :
    (st.setOffset s o).poolEnd = st.poolEnd := rfl

@[simp] theorem setOffset_self (st : Sweep) (s o : Nat) : (st.setOffset s o).offset s = o := by
  simp [setOffset]

variable {r s : Nat}

theorem setOffset_of_ne (st : Sweep) (o : Nat) (h : r ≠ s) :
    (st.setOffset s o).offset r = st.offset r := by
  simp [setOffset, h]

@[simp] theorem freeBlock_offset (st : Sweep) (b : Block) :
    (st.freeBlock b).offset = st.offset := by
  unfold freeBlock
  split <;> rfl

@[simp] theorem freeBlock_poolEnd (st : Sweep) (b : Block) :
    (st.freeBlock b).poolEnd = st.poolEnd := by
  unfold freeBlock
  split <;> rfl

theorem freeBlock_sublist (st : Sweep) (b : Block) :
    (st.freeBlock b).freeList.Sublist (st.freeList ++ [b]) := by
  unfold freeBlock
  split
  · exact Sublist.refl _
  · exact sublist_append_left _ _

theorem allocSlot_offset_of_ne (wrap : Nat → Nat) (st : Sweep) (k : Nat)
    (h : r ≠ s) : (st.allocSlot wrap s k).offset r = st.offset r := by
  unfold allocSlot
  split <;> exact setOffset_of_ne _ _ h

theorem Tiled.forget (h : Tiled size own st) (hsub : own' ⊆ own) : Tiled size own' st :=
  ⟨h.tiling.forget hsub, h.end_dvd⟩

theorem Tiled.setOffset (h : Tiled size own st) (hs : s ∉ own) (o : Nat) :
    Tiled size own (st.setOffset s o) := by
  refine ⟨h.tiling.congr fun i hi => ?_, h.end_dvd⟩
  have hne : i ≠ s := fun heq => hs (heq ▸ hi)
  simp only [blk, setOffset_of_ne _ _ hne]

theorem Tiled.freeBlock (h : Tiled size own st) (hs : s ∈ own) :
    Tiled size (own \ {s}) (st.freeBlock (st.blk size s)) := by
  have hrel := (h.tiling.release hs).sublist (st.freeBlock_sublist (st.blk size s))
  refine ⟨?_, by rw [freeBlock_poolEnd]; exact h.end_dvd⟩
  rw [freeBlock_poolEnd]
  exact hrel.congr fun i _ => by simp [blk]

theorem swapRemove_perm {free : List Block} {f : Nat} (hf : f < free.length) :
    free.Perm (free[f] :: swapRemove free f) := by
  refine (getElem_cons_eraseIdx_perm hf).symm.trans (Perm.cons _ ?_)
  obtain ⟨init, last, rfl⟩ := eq_nil_or_concat free |>.resolve_left
    (fun h => by simp [h] at hf)
  simp only [concat_eq_append] at hf ⊢
  unfold swapRemove
  rw [getLast?_concat]
  rcases lt_or_ge f init.length with hlt | hge
  · -- an entry before the last is overwritten by the last
    have hset : ((init ++ [last]).set f last).dropLast = init.set f last := by
      rw [set_append_left _ _ hlt, dropLast_concat]
    simp only [hset, eraseIdx_append_of_lt_length hlt]
    exact (perm_append_singleton _ _).trans (set_perm_cons_eraseIdx hlt last).symm
  · -- the last entry is dropped
    have hlast : f = init.length := by
      simp only [length_append, length_singleton] at hf
      omega
    subst hlast
    simp [eraseIdx_append_of_length_le]

/-- **Placing a born slot keeps the tiling.** -/
theorem Tiled.allocSlot (h : Tiled size own st) (hs : s ∉ own) (hdvd : alignment ∣ size s) :
    Tiled size (insert s own) (st.allocSlot id s (size s)) := by
  unfold Sweep.allocSlot
  cases hfind : st.freeList.findIdx? fun b => size s ≤ b.size with
  | none =>
    have hset := h.setOffset hs st.poolEnd
    refine ⟨?_, Nat.dvd_add h.end_dvd hdvd⟩
    exact (hset.tiling.extend (k := size s) (by simp [blk]) h.end_dvd hdvd).congr
      fun i _ => rfl
  | some f =>
    obtain ⟨hf, hfit, -⟩ := findIdx?_eq_some_iff_getElem.mp hfind
    have hget : st.freeList.getD f ⟨0, 0⟩ = st.freeList[f] := by simp [hf]
    simp only [hget]
    have hset := (h.setOffset hs st.freeList[f].offset).tiling
    refine ⟨?_, h.end_dvd⟩
    by_cases heq : st.freeList[f].size = size s
    · rw [if_pos heq]
      have hblk : (st.setOffset s st.freeList[f].offset).blk size s = st.freeList[f] := by
        simp [blk, ← heq]
      exact ((hset.perm (swapRemove_perm hf)).takeExact hblk).congr fun i _ => rfl
    · rw [if_neg heq]
      have hperm := (getElem_cons_eraseIdx_perm hf).symm
      have hblk : (st.setOffset s st.freeList[f].offset).blk size s =
          ⟨st.freeList[f].offset, size s⟩ := by simp [blk]
      have hspl := (hset.perm hperm).takeSplit hblk (by simpa using hfit) hdvd
      exact (hspl.perm (set_perm_cons_eraseIdx hf _).symm).congr fun i _ => rfl

theorem Tiled.allocSlot_wrap (h : Tiled size own st)
    (hlt : (st.allocSlot id s (size s)).poolEnd < 2 ^ 64) :
    st.allocSlot wrap64 s (size s) = st.allocSlot id s (size s) := by
  unfold Sweep.allocSlot at hlt ⊢
  cases hfind : st.freeList.findIdx? fun b => size s ≤ b.size with
  | none =>
    simp only [hfind, id] at hlt
    simp only [id, wrap64_of_lt hlt]
  | some f =>
    simp only [hfind, setOffset_poolEnd] at hlt
    obtain ⟨hf, hfit, -⟩ := findIdx?_eq_some_iff_getElem.mp hfind
    have hin := (h.tiling.free_in _ (getElem_mem hf)).1
    have hget : st.freeList.getD f ⟨0, 0⟩ = st.freeList[f] := by simp [hf]
    have hsmall : st.freeList[f].offset + size s < 2 ^ 64 := by
      simp only [decide_eq_true_eq] at hfit
      unfold Block.stop at hin
      omega
    simp only [hget, wrap64_of_lt hsmall, id]

theorem Tiled.handOver (h : Tiled size own st) (hr : r ∈ own) (hs : s ∉ own)
    (hle : size s ≤ size r) (hdvd : alignment ∣ size s) :
    Tiled size (insert s (own \ {r}))
      (if size r - size s > 0 then
        (st.setOffset s (st.offset r)).freeBlock ⟨st.offset r + size s, size r - size s⟩
      else st.setOffset s (st.offset r)) := by
  have hne : r ≠ s := fun heq => hs (heq ▸ hr)
  have hset := h.setOffset hs (st.offset r)
  have hblkr : (st.setOffset s (st.offset r)).blk size r = ⟨st.offset r, size r⟩ := by
    simp only [blk, setOffset_of_ne _ _ hne]
  have hblks : (st.setOffset s (st.offset r)).blk size s = ⟨st.offset r, size s⟩ := by
    simp [blk]
  have hmove := hset.tiling.transfer hr (j := s) (k := size s) (by rw [hblks, hblkr])
    hle hdvd
  rw [hblkr] at hmove
  split
  · refine ⟨?_, by rw [freeBlock_poolEnd]; exact hset.end_dvd⟩
    rw [freeBlock_poolEnd]
    exact (hmove.sublist (freeBlock_sublist _ _)).congr fun i _ => by simp [blk]
  · exact ⟨hmove.sublist (sublist_append_left _ _), hset.end_dvd⟩

end Sweep

theorem bestMatch_some {info : List Block} {consumed : List Bool} {size d waste : Nat}
    (h : bestMatch info consumed size = (some d, waste)) :
    ∃ b, info[d]? = some b ∧ consumed.getD d false = false ∧ size ≤ b.size ∧
      waste = b.size - size := by
  have hinv : ∀ d, (bestMatch info consumed size).1 = some d → ∃ b, info[d]? = some b ∧
      consumed.getD d false = false ∧ size ≤ b.size ∧
        (bestMatch info consumed size).2 = b.size - size := by
    refine foldl_range_inv (fun _ (best : Option Nat × Nat) =>
      ∀ d, best.1 = some d → ∃ b, info[d]? = some b ∧ consumed.getD d false = false ∧
        size ≤ b.size ∧ best.2 = b.size - size) (by simp) ?_
    intro i best hi ih
    have hget : info[i]? = some info[i] := getElem?_eq_getElem hi
    have hgetD : info.getD i ⟨0, 0⟩ = info[i] := by simp [hi]
    simp only [hgetD]
    split_ifs with hfree
    · rintro d hd
      obtain rfl : i = d := by simpa using hd
      exact ⟨_, hget, by simpa using hfree.1, hfree.2, rfl⟩
    · exact ih
    · exact ih
  rw [h] at hinv
  exact hinv d rfl

section Op
variable {size : Nat → Nat} {st : Sweep} {stay : Set Nat} {dying born : List Nat}

variable {s d bornIdx : Nat}

theorem mem_leftOver {xs : List Nat} {flags : List Bool} : s ∈ leftOver xs flags ↔
      ∃ i, xs[i]? = some s ∧ ¬ (i < maxPerOp ∧ flags.getD i false = true) := by
  unfold leftOver
  rw [mem_entriesBut]
  refine exists_congr fun i => and_congr_right fun hi => ?_
  obtain ⟨hlt, -⟩ := List.getElem?_eq_some_iff.mp hi
  by_cases hcap : i < maxPerOp <;> simp [hcap, hlt]

theorem leftOver_sublist (xs : List Nat) (flags : List Bool) : (leftOver xs flags).Sublist xs :=
  entriesBut_sublist _ _

/-- What an op's lists promise: nobody dies or is born twice, nobody does both, and
a slot that stays does neither. -/
structure OpLists (stay : Set Nat) (dying born : List Nat) : Prop where
  dying_nodup : dying.Nodup
  born_nodup : born.Nodup
  dying_born : ∀ s ∈ dying, s ∉ born
  stay_dying : ∀ s ∈ stay, s ∉ dying
  stay_born : ∀ s ∈ stay, s ∉ born

/-- The owners in the middle of the direct match. -/
def matchOwners (stay : Set Nat) (dying born : List Nat) (m : DirectMatch) : Set Nat :=
  {s | s ∈ stay ∨ s ∈ leftOver dying m.consumed ∨
    ∃ i : Nat, m.assigned.getD i false = true ∧ born[i]? = some s}

/-- The invariant of the direct match before the born slot `bornIdx`. -/
structure Matching (size : Nat → Nat) (st : Sweep) (stay : Set Nat) (dying born : List Nat)
    (bornIdx : Nat) (m : DirectMatch) : Prop where
  tiled : m.sweep.Tiled size (matchOwners stay dying born m)
  frame : ∀ s, s ∉ born → m.sweep.offset s = st.offset s
  poolEnd_eq : m.sweep.poolEnd = st.poolEnd
  assigned_lt : ∀ i : Nat, m.assigned.getD i false = true → i < bornIdx
  consumed_len : m.consumed.length = maxPerOp

/-- The dying blocks as the direct match reads them. -/
def dyingInfo (size : Nat → Nat) (st : Sweep) (dying : List Nat) : List Block :=
  (dying.take maxPerOp).map fun s => ⟨st.offset s, size s⟩

theorem dyingInfo_some {b : Block} (h : (dyingInfo size st dying)[d]? = some b) :
    ∃ r, dying[d]? = some r ∧ d < maxPerOp ∧ b = ⟨st.offset r, size r⟩ := by
  simp only [dyingInfo, getElem?_map, Option.map_eq_some_iff] at h
  obtain ⟨r, hr, rfl⟩ := h
  rw [getElem?_take] at hr
  split at hr
  · exact ⟨r, hr, ‹_›, rfl⟩
  · cases hr

/-- What a direct match of one born slot can do: leave everything, or hand the
block of an unconsumed dying slot over. -/
theorem matchBorn_cases (size : Nat → Nat) (st : Sweep) (dying : List Nat) (m : DirectMatch)
    (hs : born[bornIdx]? = some s) :
    (∀ wrap, matchBorn wrap size (dyingInfo size st dying) born m bornIdx = m) ∨
    ∃ d r, dying[d]? = some r ∧ d < maxPerOp ∧ m.consumed.getD d false = false ∧
      size s ≤ size r ∧
      ∀ wrap, matchBorn wrap size (dyingInfo size st dying) born m bornIdx =
        { sweep :=
            if size r - size s > 0 then
              (m.sweep.setOffset s (st.offset r)).freeBlock
                ⟨wrap (st.offset r + size s), size r - size s⟩
            else m.sweep.setOffset s (st.offset r)
          consumed := m.consumed.set d true
          assigned := m.assigned.set bornIdx true } := by
  have hgetD : born.getD bornIdx 0 = s := by simp [hs]
  unfold matchBorn
  simp only [hgetD]
  rcases hbest : bestMatch (dyingInfo size st dying) m.consumed (size s) with ⟨best, waste⟩
  cases best with
  | none => exact .inl fun _ => rfl
  | some d =>
    obtain ⟨b, hb, hfree, hfit, rfl⟩ := bestMatch_some hbest
    obtain ⟨r, hr, hcap, rfl⟩ := dyingInfo_some hb
    refine .inr ⟨d, r, hr, hcap, hfree, hfit, fun wrap => ?_⟩
    simp only [getD_eq_getElem?_getD, hb, Option.getD_some]

theorem getD_set_true {flags : List Bool} {i : Nat} : (flags.set d true).getD i false = true ↔
      flags.getD i false = true ∨ (i = d ∧ d < flags.length) := by
  by_cases hid : d = i
  · subst hid
    by_cases hlt : d < flags.length <;> simp [hlt]
  · simp [hid, Ne.symm hid]

theorem getD_replicate_false (n i : Nat) : (replicate n false).getD i false = false := by
  rw [getD_eq_getElem?_getD, getElem?_replicate]
  split <;> rfl

namespace Matching
variable {bornIdx : Nat} {m : DirectMatch}

theorem dying_owner {d r : Nat} (hr : dying[d]? = some r)
    (hfree : m.consumed.getD d false = false) :
    r ∈ matchOwners stay dying born m :=
  .inr (.inl (mem_leftOver.mpr ⟨d, hr, fun hc => Bool.false_ne_true (hfree.symm.trans hc.2)⟩))

variable (hop : OpLists stay dying born) (h : Matching size st stay dying born bornIdx m)
include hop h

theorem born_not_owner {s : Nat} (hs : born[bornIdx]? = some s) :
    s ∉ matchOwners stay dying born m := by
  have hmem : s ∈ born := mem_of_getElem? hs
  rintro (hstay | hleft | ⟨i, hi, his⟩)
  · exact hop.stay_born s hstay hmem
  · obtain ⟨i, hi, -⟩ := mem_leftOver.mp hleft
    exact hop.dying_born s (mem_of_getElem? hi) hmem
  · obtain ⟨hlt, -⟩ := List.getElem?_eq_some_iff.mp his
    have hib : i = bornIdx := (getElem?_inj hlt hop.born_nodup).mp (his.trans hs.symm)
    have := h.assigned_lt i hi
    omega

theorem owners_handOver {d r s : Nat} (hs : born[bornIdx]? = some s)
    (hr : dying[d]? = some r) (hcap : d < maxPerOp) (sweep : Sweep) :
    matchOwners stay dying born ⟨sweep, m.consumed.set d true, m.assigned.set bornIdx true⟩ ⊆
      insert s (matchOwners stay dying born m \ {r}) := by
  have hrmem : r ∈ dying := mem_of_getElem? hr
  rintro x (hstay | hleft | ⟨i, hi, hix⟩)
  · exact .inr ⟨.inl hstay, fun hx => hop.stay_dying x hstay (hx ▸ hrmem)⟩
  · obtain ⟨i, hi, hnot⟩ := mem_leftOver.mp hleft
    simp only [getD_set_true, h.consumed_len] at hnot
    refine .inr ⟨.inr (.inl (mem_leftOver.mpr ⟨i, hi, fun hc => ?_⟩)), ?_⟩
    · exact hnot ⟨hc.1, .inl hc.2⟩
    · -- the dying slots are distinct, so `x = r` would make `i = d`, which is consumed now
      rintro rfl
      obtain ⟨hlt, -⟩ := List.getElem?_eq_some_iff.mp hi
      have hid : i = d := (getElem?_inj hlt hop.dying_nodup).mp (hi.trans hr.symm)
      exact hnot ⟨hid ▸ hcap, .inr ⟨hid, hcap⟩⟩
  · rcases getD_set_true.mp hi with hold | ⟨rfl, -⟩
    · refine .inr ⟨.inr (.inr ⟨i, hold, hix⟩), ?_⟩
      rintro rfl
      exact hop.dying_born x hrmem (mem_of_getElem? hix)
    · left
      exact Option.some.inj (hix.symm.trans hs)

theorem step (hdvd : ∀ s, alignment ∣ size s) (hlt : bornIdx < born.length) :
    Matching size st stay dying born (bornIdx + 1)
      (matchBorn id size (dyingInfo size st dying) born m bornIdx) := by
  have hs : born[bornIdx]? = some born[bornIdx] := getElem?_eq_getElem hlt
  rcases matchBorn_cases size st dying m hs with heq | ⟨d, r, hr, hcap, hfree, hfit, heq⟩
  · rw [heq]
    exact { h with assigned_lt := fun i hi => Nat.lt_succ_of_lt (h.assigned_lt i hi) }
  · rw [heq]
    have hrmem : r ∈ dying := mem_of_getElem? hr
    have hoff : m.sweep.offset r = st.offset r := h.frame r (hop.dying_born r hrmem)
    have hover := h.tiled.handOver (dying_owner hr hfree) (h.born_not_owner hop hs) hfit (hdvd _)
    rw [hoff] at hover
    refine ⟨hover.forget (h.owners_handOver hop hs hr hcap _), ?_, ?_, ?_, ?_⟩
    · intro x hx
      have hne : x ≠ born[bornIdx] := fun heq => hx (heq ▸ getElem_mem hlt)
      rw [← h.frame x hx]
      split <;> simp [Sweep.setOffset_of_ne _ _ hne]
    · rw [← h.poolEnd_eq]
      split <;> simp
    · intro i hi
      rcases getD_set_true.mp hi with hold | ⟨rfl, -⟩
      · exact Nat.lt_succ_of_lt (h.assigned_lt i hold)
      · exact lt_add_one _
    · simp [h.consumed_len]

theorem step_wrap (hlt : bornIdx < born.length) (hend : st.poolEnd < 2 ^ 64) :
    matchBorn wrap64 size (dyingInfo size st dying) born m bornIdx =
      matchBorn id size (dyingInfo size st dying) born m bornIdx := by
  have hs : born[bornIdx]? = some born[bornIdx] := getElem?_eq_getElem hlt
  rcases matchBorn_cases size st dying m hs with heq | ⟨d, r, hr, -, hfree, hfit, heq⟩
  · rw [heq, heq]
  · have hoff := h.frame r (hop.dying_born r (mem_of_getElem? hr))
    have hin := (h.tiled.tiling.own_in r (dying_owner hr hfree)).1
    have hsmall : st.offset r + size born[bornIdx] < 2 ^ 64 := by
      simp only [Block.stop, Sweep.blk, hoff, h.poolEnd_eq] at hin
      omega
    rw [heq, heq, wrap64_of_lt hsmall, id]

end Matching

theorem Matching.start (born : List Nat) (h : st.Tiled size {s | s ∈ stay ∨ s ∈ dying}) :
    Matching size st stay dying born 0
      ⟨st, replicate maxPerOp false, replicate maxPerOp false⟩ where
  tiled := h.forget <| by
    rintro s (hstay | hleft | ⟨i, hi, -⟩)
    · exact .inl hstay
    · exact .inr ((leftOver_sublist _ _).subset hleft)
    · exact absurd hi (by simp only [getD_replicate_false, Bool.false_eq_true, not_false_iff])
  frame := fun _ _ => rfl
  poolEnd_eq := rfl
  assigned_lt := fun i hi => absurd hi (by simp only [getD_replicate_false,
    Bool.false_eq_true, not_false_iff])
  consumed_len := length_replicate

theorem directMatch_eq (wrap : Nat → Nat) (size : Nat → Nat) (dying born : List Nat) (st : Sweep) :
    directMatch wrap size dying born st =
      if 0 < (dying.take maxPerOp).length ∧ 0 < (born.take maxPerOp).length then
        (range (born.take maxPerOp).length).foldl
          (matchBorn wrap size (dyingInfo size st dying) born)
          ⟨st, replicate maxPerOp false, replicate maxPerOp false⟩
      else ⟨st, replicate maxPerOp false, replicate maxPerOp false⟩ := rfl

def freeAll (size : Nat → Nat) (ds : List Nat) (st : Sweep) : Sweep :=
  ds.foldl (fun st s => st.freeBlock ⟨st.offset s, size s⟩) st

def allocAll (wrap : Nat → Nat) (size : Nat → Nat) (bs : List Nat) (st : Sweep) : Sweep :=
  bs.foldl (fun st s => st.allocSlot wrap s (size s)) st

theorem sweepOp_eq (wrap : Nat → Nat) (size : Nat → Nat) (dying born : List Nat) (st : Sweep) :
    sweepOp wrap size dying born st =
      allocAll wrap size (leftOver born (directMatch wrap size dying born st).assigned)
        (freeAll size (leftOver dying (directMatch wrap size dying born st).consumed)
          (directMatch wrap size dying born st).sweep) := rfl

@[simp] theorem freeAll_offset (ds : List Nat) (st : Sweep) :
    (freeAll size ds st).offset = st.offset := by
  induction ds generalizing st with
  | nil => rfl
  | cons d ds ih => exact (ih _).trans (Sweep.freeBlock_offset _ _)

@[simp] theorem freeAll_poolEnd (ds : List Nat) (st : Sweep) :
    (freeAll size ds st).poolEnd = st.poolEnd := by
  induction ds generalizing st with
  | nil => rfl
  | cons d ds ih => exact (ih _).trans (Sweep.freeBlock_poolEnd _ _)

variable {own : Set Nat}

theorem freeAll_tiled {ds : List Nat} (h : st.Tiled size own)
    (hnd : ds.Nodup) (hds : ∀ d ∈ ds, d ∈ own) :
    (freeAll size ds st).Tiled size {s | s ∈ own ∧ s ∉ ds} := by
  induction ds generalizing own st with
  | nil => exact h.forget fun s hs => hs.1
  | cons d ds ih =>
    obtain ⟨hd, hnd⟩ := nodup_cons.mp hnd
    have hstep := h.freeBlock (hds d mem_cons_self)
    refine (ih hstep hnd fun x hx => ?_).forget ?_
    · exact ⟨hds x (mem_cons_of_mem _ hx), fun heq => hd (heq ▸ hx)⟩
    · rintro s ⟨hs, hnot⟩
      rw [mem_cons, not_or] at hnot
      exact ⟨⟨hs, hnot.1⟩, hnot.2⟩

variable {bs : List Nat}

theorem allocAll_offset (wrap : Nat → Nat) (hs : s ∉ bs) (st : Sweep) :
    (allocAll wrap size bs st).offset s = st.offset s := by
  induction bs generalizing st with
  | nil => rfl
  | cons b bs ih =>
    rw [mem_cons, not_or] at hs
    exact (ih hs.2 _).trans (Sweep.allocSlot_offset_of_ne _ _ _ hs.1)

theorem not_mem_insert {b : Nat} (hb : b ∉ bs) (hbs : ∀ x ∈ b :: bs, x ∉ own) :
    ∀ x ∈ bs, x ∉ insert b own := by
  rintro x hx (rfl | hxo)
  · exact hb hx
  · exact hbs x (mem_cons_of_mem _ hx) hxo

theorem allocAll_tiled (h : st.Tiled size own)
    (hdvd : ∀ s, alignment ∣ size s) (hnd : bs.Nodup) (hbs : ∀ b ∈ bs, b ∉ own) :
    (allocAll id size bs st).Tiled size {s | s ∈ own ∨ s ∈ bs} := by
  induction bs generalizing own st with
  | nil => exact h.forget fun s hs => hs.resolve_right not_mem_nil
  | cons b bs ih =>
    obtain ⟨hb, hnd⟩ := nodup_cons.mp hnd
    have hstep := h.allocSlot (hbs b mem_cons_self) (hdvd b)
    refine (ih hstep hnd (not_mem_insert hb hbs)).forget ?_
    rintro s (hs | hs)
    · exact .inl (.inr hs)
    · exact (mem_cons.mp hs).imp .inl id

theorem allocSlot_poolEnd (st : Sweep) (s k : Nat) : st.poolEnd ≤ (st.allocSlot id s k).poolEnd ∧
      (st.allocSlot id s k).poolEnd ≤ st.poolEnd + k := by
  unfold Sweep.allocSlot
  split <;> simp

theorem allocAll_poolEnd (size : Nat → Nat) (bs : List Nat) (st : Sweep) :
    st.poolEnd ≤ (allocAll id size bs st).poolEnd ∧
      (allocAll id size bs st).poolEnd ≤ st.poolEnd + (bs.map size).sum := by
  induction bs generalizing st with
  | nil => exact ⟨le_rfl, le_rfl⟩
  | cons b bs ih =>
    have hstep := allocSlot_poolEnd st b (size b)
    have hrest := ih (st.allocSlot id b (size b))
    simp only [allocAll, foldl_cons, map_cons, sum_cons] at hrest ⊢
    omega

theorem allocAll_wrap (h : st.Tiled size own)
    (hdvd : ∀ s, alignment ∣ size s) (hnd : bs.Nodup) (hbs : ∀ b ∈ bs, b ∉ own)
    (hend : (allocAll id size bs st).poolEnd < 2 ^ 64) :
    allocAll wrap64 size bs st = allocAll id size bs st := by
  induction bs generalizing own st with
  | nil => rfl
  | cons b bs ih =>
    obtain ⟨hb, hnd⟩ := nodup_cons.mp hnd
    have hfir : (st.allocSlot id b (size b)).poolEnd < 2 ^ 64 :=
      lt_of_le_of_lt (allocAll_poolEnd size bs _).1 hend
    have heq := h.allocSlot_wrap hfir
    have hstep := h.allocSlot (hbs b mem_cons_self) (hdvd b)
    simp only [allocAll, foldl_cons] at hend ⊢
    rw [heq]
    exact ih hstep hnd (not_mem_insert hb hbs) hend

theorem matchBorn_offset (wrap : Nat → Nat) (m : DirectMatch)
    (hlt : bornIdx < born.length) (hs : s ∉ born) :
    (matchBorn wrap size (dyingInfo size st dying) born m bornIdx).sweep.offset s =
      m.sweep.offset s := by
  have hne : s ≠ born[bornIdx] := fun heq => hs (heq ▸ getElem_mem hlt)
  rcases matchBorn_cases size st dying m (getElem?_eq_getElem hlt) with
    heq | ⟨d, r, -, -, -, -, heq⟩
  · rw [heq]
  · rw [heq]
    split <;> simp [Sweep.setOffset_of_ne _ _ hne]

theorem sweepOp_offset (wrap : Nat → Nat) (hs : s ∉ born) :
    (sweepOp wrap size dying born st).offset s = st.offset s := by
  rw [sweepOp_eq, allocAll_offset _ (fun h => hs ((leftOver_sublist _ _).subset h)),
    freeAll_offset, directMatch_eq]
  split
  · refine foldl_range_inv (fun _ (m : DirectMatch) => m.sweep.offset s = st.offset s) rfl
      fun i m hi hm => ?_
    rw [matchBorn_offset _ m (hi.trans_le (length_take_le' _ _)) hs, hm]
  · rfl

theorem sweepOp_congr {size' : Nat → Nat} (wrap : Nat → Nat)
    (hd : ∀ s ∈ dying, size s = size' s) (hb : ∀ s ∈ born, size s = size' s) :
    sweepOp wrap size dying born st = sweepOp wrap size' dying born st := by
  have hinfo : dyingInfo size st dying = dyingInfo size' st dying := by
    refine map_congr_left fun s hs => ?_
    rw [hd s ((take_sublist _ _).subset hs)]
  have hmat : directMatch wrap size dying born st = directMatch wrap size' dying born st := by
    rw [directMatch_eq, directMatch_eq, hinfo]
    split
    · refine foldl_range_congr (fun _ _ => True) trivial (fun _ _ _ _ => trivial) ?_
      intro i m hi _
      have hlt : i < born.length := hi.trans_le (length_take_le' _ _)
      have hsize : size (born.getD i 0) = size' (born.getD i 0) :=
        hb _ (by simp [hlt])
      simp only [matchBorn, hsize]
    · rfl
  have hfree : ∀ flags st, freeAll size (leftOver dying flags) st =
      freeAll size' (leftOver dying flags) st := fun flags st =>
    foldl_ext _ _ _ fun st s hs => by rw [hd s ((leftOver_sublist _ _).subset hs)]
  have hall : ∀ flags st, allocAll wrap size (leftOver born flags) st =
      allocAll wrap size' (leftOver born flags) st := fun flags st =>
    foldl_ext _ _ _ fun st s hs => by rw [hb s ((leftOver_sublist _ _).subset hs)]
  rw [sweepOp_eq, sweepOp_eq, hmat, hfree, hall]

theorem leftOver_not_owner (hop : OpLists stay dying born) (flags : List Bool) :
    ∀ b ∈ leftOver born flags, b ∉ {s | s ∈ stay ∨ (s ∈ born ∧ s ∉ leftOver born flags)} := by
  rintro b hb (hstay | ⟨-, hnot⟩)
  · exact hop.stay_born b hstay ((leftOver_sublist _ _).subset hb)
  · exact hnot hb

variable (hop : OpLists stay dying born) (hdvd : ∀ s, alignment ∣ size s)
  (h : st.Tiled size {s | s ∈ stay ∨ s ∈ dying})
include hop hdvd h

/-- **The direct match keeps the tiling.** -/
theorem directMatch_matching : Matching size st stay dying born (born.take maxPerOp).length
      (directMatch id size dying born st) := by
  rw [directMatch_eq]
  have hstart := Matching.start born h
  split
  · refine foldl_range_inv (Matching size st stay dying born) hstart ?_
    intro i m hi hm
    exact hm.step hop hdvd (hi.trans_le (length_take_le' _ _))
  · exact { hstart with assigned_lt := fun i hi => absurd (hstart.assigned_lt i hi) (by omega) }

theorem directMatch_wrap (hend : st.poolEnd < 2 ^ 64) :
    directMatch wrap64 size dying born st = directMatch id size dying born st := by
  rw [directMatch_eq, directMatch_eq]
  have hlt : ∀ i, i < (born.take maxPerOp).length → i < born.length :=
    fun i hi => hi.trans_le (length_take_le' _ _)
  split
  · exact foldl_range_congr (Matching size st stay dying born) (Matching.start born h)
      (fun i m hi hm => hm.step hop hdvd (hlt i hi))
      (fun i m hi hm => hm.step_wrap hop (hlt i hi) hend)
  · rfl

theorem freed_tiled : (freeAll size (leftOver dying (directMatch id size dying born st).consumed)
      (directMatch id size dying born st).sweep).Tiled size
      {s | s ∈ stay ∨ (s ∈ born ∧
        s ∉ leftOver born (directMatch id size dying born st).assigned)} := by
  have hm := directMatch_matching hop hdvd h
  refine (freeAll_tiled hm.tiled ((leftOver_sublist _ _).nodup hop.dying_nodup)
    (fun d hd => .inr (.inl hd))).forget ?_
  rintro s (hstay | ⟨hborn, hnot⟩)
  · exact ⟨.inl hstay, fun hs => hop.stay_dying s hstay ((leftOver_sublist _ _).subset hs)⟩
  · obtain ⟨i, hi⟩ := getElem?_of_mem hborn
    -- a born slot that is not left over was assigned
    have hass : (directMatch id size dying born st).assigned.getD i false = true := by
      by_contra hne
      exact hnot (mem_leftOver.mpr ⟨i, hi, fun hc => hne hc.2⟩)
    exact ⟨.inr (.inr ⟨i, hass, hi⟩),
      fun hs => hop.dying_born s ((leftOver_sublist _ _).subset hs) hborn⟩

/-- **One op of the sweep**: if the slots that stay and the slots that die tile the
pool before it, the slots that stay and the slots that are born tile it after. -/
theorem sweepOp_tiled : (sweepOp id size dying born st).Tiled size {s | s ∈ stay ∨ s ∈ born} := by
  refine (allocAll_tiled (freed_tiled hop hdvd h) hdvd
    ((leftOver_sublist _ _).nodup hop.born_nodup) (leftOver_not_owner hop _)).forget ?_
  rintro s (hstay | hborn)
  · exact .inl (.inl hstay)
  · by_cases hl : s ∈ leftOver born (directMatch id size dying born st).assigned
    · exact .inr hl
    · exact .inl (.inr ⟨hborn, hl⟩)

theorem sweepOp_poolEnd : st.poolEnd ≤ (sweepOp id size dying born st).poolEnd ∧
      (sweepOp id size dying born st).poolEnd ≤ st.poolEnd + (born.map size).sum := by
  have hpool := allocAll_poolEnd size
    (leftOver born (directMatch id size dying born st).assigned)
    (freeAll size (leftOver dying (directMatch id size dying born st).consumed)
      (directMatch id size dying born st).sweep)
  rw [freeAll_poolEnd, (directMatch_matching hop hdvd h).poolEnd_eq] at hpool
  have hsum := ((leftOver_sublist born (directMatch id size dying born st).assigned).map
    size).sum_le_sum (fun _ _ => zero_le)
  exact ⟨hpool.1, hpool.2.trans (Nat.add_le_add_left hsum _)⟩

theorem sweepOp_wrap (hend : (sweepOp id size dying born st).poolEnd < 2 ^ 64) :
    sweepOp wrap64 size dying born st = sweepOp id size dying born st := by
  have hstart := lt_of_le_of_lt (sweepOp_poolEnd hop hdvd h).1 hend
  rw [sweepOp_eq, directMatch_wrap hop hdvd h hstart]
  exact allocAll_wrap (freed_tiled hop hdvd h) hdvd
    ((leftOver_sublist _ _).nodup hop.born_nodup) (leftOver_not_owner hop _) hend

end Op
end Crucible
