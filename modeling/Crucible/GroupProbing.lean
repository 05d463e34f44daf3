import Crucible.OpenAddressing
import Mathlib.Data.Fintype.EquivFin
import Mathlib.Data.Nat.ModEq
import Mathlib.Data.Nat.Prime.Basic
import Mathlib.Tactic.Ring

/-! # Probing a table by groups

A table of `groups` groups of `width` cells.  The search for a key looks at one group after
another: first at all the cells of the group whose tag is the tag of the key, then for an
empty cell.  Group number `i` of a key is `i` triangular steps from its home group, and over a
power of two the first `groups` of them are all the groups (`triangular_surj`).  Seen cell by
cell (`cellAt`), this is open addressing.
-/
namespace Crucible
namespace OpenAddressing

/-- The sum of the first `i` steps. -/
def triangular (i : Nat) : Nat := i * (i + 1) / 2

theorem two_mul_triangular (i : Nat) : 2 * triangular i = i * (i + 1) :=
  Nat.mul_div_cancel' (Nat.even_mul_succ_self i).two_dvd

theorem triangular_succ (i : Nat) : triangular (i + 1) = triangular i + (i + 1) := by
  have h := two_mul_triangular i
  have h' := two_mul_triangular (i + 1)
  have hring : (i + 1) * (i + 1 + 1) = i * (i + 1) + 2 * (i + 1) := by ring
  omega

/-- Two triangular numbers below a power of two are different modulo that power. -/
theorem triangular_mod_inj {m i j : Nat} (hij : i < j) (hj : j < 2 ^ m) :
    triangular i % 2 ^ m ≠ triangular j % 2 ^ m := by
  intro heq
  have hpow : 2 ^ (m + 1) = 2 * 2 ^ m := by ring
  -- the difference of the doubles is a product of an odd and an even number
  obtain ⟨d, rfl⟩ := Nat.exists_eq_add_of_lt hij
  have hle : triangular i ≤ triangular (i + d + 1) := by
    have h := two_mul_triangular i
    have h' := two_mul_triangular (i + d + 1)
    have hmul : i * (i + 1) ≤ (i + d + 1) * (i + d + 1 + 1) :=
      Nat.mul_le_mul (by omega) (by omega)
    omega
  have hdvd : 2 ^ m ∣ triangular (i + d + 1) - triangular i :=
    (Nat.modEq_iff_dvd' hle).mp heq
  have hprod : 2 * (triangular (i + d + 1) - triangular i) = (d + 1) * (2 * i + d + 2) := by
    have h := two_mul_triangular i
    have h' := two_mul_triangular (i + d + 1)
    have hring : (i + d + 1) * (i + d + 1 + 1) = i * (i + 1) + (d + 1) * (2 * i + d + 2) := by ring
    omega
  have hdvd2 : 2 ^ (m + 1) ∣ (d + 1) * (2 * i + d + 2) := by
    rw [← hprod, hpow]
    exact Nat.mul_dvd_mul_left 2 hdvd
  -- the power divides the even factor, which is too small for it
  rcases Nat.even_or_odd d with heven | hodd
  · have hcop : Nat.Coprime (2 ^ (m + 1)) (d + 1) :=
      Nat.Coprime.pow_left _ (Nat.coprime_two_left.mpr heven.add_one)
    have hle := Nat.le_of_dvd (by omega) (hcop.dvd_of_dvd_mul_left hdvd2)
    omega
  · have hcop : Nat.Coprime (2 ^ (m + 1)) (2 * i + d + 2) := by
      refine Nat.Coprime.pow_left _ (Nat.coprime_two_left.mpr ?_)
      obtain ⟨e, rfl⟩ := hodd
      exact ⟨i + e + 1, by ring⟩
    have hle := Nat.le_of_dvd (by omega) (hcop.dvd_of_dvd_mul_right hdvd2)
    omega

/-- **Triangular steps reach every group** of a power of two of them. -/
theorem triangular_surj (m home c : Nat) (hc : c < 2 ^ m) :
    ∃ i, i < 2 ^ m ∧ (home + triangular i) % 2 ^ m = c := by
  have hpos : 0 < 2 ^ m := Nat.two_pow_pos m
  let step : Fin (2 ^ m) → Fin (2 ^ m) := fun i =>
    ⟨(home + triangular i.val) % 2 ^ m, Nat.mod_lt _ hpos⟩
  have hinj : Function.Injective step := by
    intro i j heq
    have hmod : triangular i.val % 2 ^ m = triangular j.val % 2 ^ m :=
      Nat.ModEq.add_left_cancel' home (Fin.mk.inj heq)
    rcases lt_trichotomy i.val j.val with hlt | hsame | hlt
    · exact absurd hmod (triangular_mod_inj hlt j.isLt)
    · exact Fin.ext hsame
    · exact absurd hmod.symm (triangular_mod_inj hlt i.isLt)
  obtain ⟨i, hi⟩ := (Finite.injective_iff_surjective.mp hinj) ⟨c, hc⟩
  exact ⟨i.val, i.isLt, congrArg Fin.val hi⟩

/-! ### The cells in the order of the search -/

variable {κ σ : Type}

/-- The first cell of group number `i` of a key whose home is `home`. -/
def groupAt (groups width home i : Nat) : Nat := (home + triangular i) % groups * width

/-- Cell number `i` of the search. -/
def cellAt (groups width : Nat) (home : κ → Nat) (k : κ) (i : Nat) : Nat :=
  groupAt groups width (home k) (i / width) + i % width

section Cells
variable {m width : Nat} {home : κ → Nat}

theorem groupAt_lt (h i : Nat) {j : Nat} (hj : j < width) :
    groupAt (2 ^ m) width h i + j < 2 ^ m * width := by
  have hlt : (h + triangular i) % 2 ^ m < 2 ^ m := Nat.mod_lt _ (Nat.two_pow_pos m)
  calc groupAt (2 ^ m) width h i + j < (h + triangular i) % 2 ^ m * width + width :=
        Nat.add_lt_add_left hj _
    _ = ((h + triangular i) % 2 ^ m + 1) * width := by rw [add_mul, one_mul]
    _ ≤ 2 ^ m * width := Nat.mul_le_mul_right _ hlt

theorem cellAt_group (hwid : 0 < width) (k : κ) (i : Nat) {j : Nat} (hj : j < width) :
    cellAt (2 ^ m) width home k (i * width + j) = groupAt (2 ^ m) width (home k) i + j := by
  rw [cellAt, mul_comm i width, Nat.mul_add_div hwid, Nat.div_eq_of_lt hj,
    Nat.mul_add_mod, Nat.mod_eq_of_lt hj, add_zero]

theorem cellAt_fullCycle (hwid : 0 < width) :
    FullCycle (cellAt (2 ^ m) width home) (2 ^ m * width) where
  lt k i := groupAt_lt _ _ (Nat.mod_lt _ hwid)
  reach k c hc := by
    have hgroup : c / width < 2 ^ m := Nat.div_lt_of_lt_mul (by rwa [mul_comm])
    obtain ⟨i, hi, heq⟩ := triangular_surj m (home k) (c / width) hgroup
    have hj : c % width < width := Nat.mod_lt _ hwid
    refine ⟨i * width + c % width, ?_, ?_⟩
    · calc i * width + c % width < i * width + width := Nat.add_lt_add_left hj _
        _ = (i + 1) * width := by rw [add_mul, one_mul]
        _ ≤ 2 ^ m * width := Nat.mul_le_mul_right _ hi
    · rw [cellAt_group hwid k i hj, groupAt, heq]
      exact Nat.div_add_mod' c width

end Cells

/-! ### A search by groups -/

variable [DecidableEq κ] (keyOf : σ → Option κ) (groups width : Nat) (home : κ → Nat)

/-- The offset of the key in the group that starts at `b`. -/
def inGroup (table : Nat → σ) (k : κ) (b : Nat) : Option Nat :=
  (List.range width).find? fun j => keyOf (table (b + j)) = some k

/-- The offset of the first empty cell of the group that starts at `b`. -/
def emptyIn (table : Nat → σ) (b : Nat) : Option Nat :=
  (List.range width).find? fun j => (keyOf (table (b + j))).isNone

/-- The search from group number `i` on, with `n` groups left. -/
def groupSearch (table : Nat → σ) (k : κ) : Nat → Nat → Probe
  | _, 0 => .full
  | i, n + 1 =>
    match inGroup keyOf width table k (groupAt groups width (home k) i) with
    | some j => .hit (groupAt groups width (home k) i + j)
    | none =>
      match emptyIn keyOf width table (groupAt groups width (home k) i) with
      | some j => .free (groupAt groups width (home k) i + j)
      | none => groupSearch table k (i + 1) n

variable {keyOf groups width home} {table : Nat → σ} {k : κ}

theorem inGroup_some {b j : Nat} (h : inGroup keyOf width table k b = some j) :
    j < width ∧ keyOf (table (b + j)) = some k := by
  obtain ⟨hp, hj, -⟩ := List.find?_range_eq_some.mp h
  exact ⟨List.mem_range.mp hj, of_decide_eq_true hp⟩

theorem inGroup_none {b j : Nat} (h : inGroup keyOf width table k b = none) (hj : j < width) :
    keyOf (table (b + j)) ≠ some k := by
  have hno := List.find?_range_eq_none.mp h j hj
  simpa using hno

omit [DecidableEq κ] in
theorem emptyIn_some {b j : Nat} (h : emptyIn keyOf width table b = some j) :
    j < width ∧ keyOf (table (b + j)) = none ∧
      ∀ i, i < j → ∃ k', keyOf (table (b + i)) = some k' := by
  obtain ⟨hp, hj, hbef⟩ := List.find?_range_eq_some.mp h
  refine ⟨List.mem_range.mp hj, Option.isNone_iff_eq_none.mp hp, fun i hi => ?_⟩
  have hno := hbef i hi
  rw [Bool.not_eq_true', Option.isNone_eq_false_iff] at hno
  exact Option.isSome_iff_exists.mp hno

omit [DecidableEq κ] in
theorem emptyIn_none {b j : Nat} (h : emptyIn keyOf width table b = none) (hj : j < width) :
    ∃ k', keyOf (table (b + j)) = some k' := by
  have hno := List.find?_range_eq_none.mp h j hj
  rw [Bool.not_eq_true', Option.isNone_eq_false_iff] at hno
  exact Option.isSome_iff_exists.mp hno

omit [DecidableEq κ] in
theorem Passed.group {m : Nat} {i j : Nat} (hwid : 0 < width)
    (hpas : Passed keyOf (cellAt (2 ^ m) width home) table k (i * width))
    (hno : ∀ l, l < width → keyOf (table (groupAt (2 ^ m) width (home k) i + l)) ≠ some k)
    (hj : j ≤ width)
    (hused : ∀ l, l < j → ∃ k', keyOf (table (groupAt (2 ^ m) width (home k) i + l)) = some k') :
    Passed keyOf (cellAt (2 ^ m) width home) table k (i * width + j) := by
  intro l hl
  rcases lt_or_ge l (i * width) with hlt | hge
  · exact hpas l hlt
  · obtain ⟨l', rfl⟩ := Nat.exists_eq_add_of_le hge
    have hl' : l' < width := by omega
    rw [cellAt_group hwid k i hl']
    obtain ⟨k', hk'⟩ := hused l' (by omega)
    refine ⟨k', hk', ?_⟩
    rintro rfl
    exact hno l' hl' hk'

/-- What a search from group number `i` returns, for each way in which it can end. -/
theorem groupSearch_cases {m : Nat} (hwid : 0 < width) (i n : Nat)
    (hpas : Passed keyOf (cellAt (2 ^ m) width home) table k (i * width)) :
    (∃ c, groupSearch keyOf (2 ^ m) width home table k i n = .hit c ∧ c < 2 ^ m * width ∧
      keyOf (table c) = some k) ∨
    (∃ j, groupSearch keyOf (2 ^ m) width home table k i n =
        .free (cellAt (2 ^ m) width home k j) ∧ j < (i + n) * width ∧
      keyOf (table (cellAt (2 ^ m) width home k j)) = none ∧
      Passed keyOf (cellAt (2 ^ m) width home) table k j) ∨
    (groupSearch keyOf (2 ^ m) width home table k i n = .full ∧
      Passed keyOf (cellAt (2 ^ m) width home) table k ((i + n) * width)) := by
  induction n generalizing i with
  | zero => exact .inr (.inr ⟨rfl, hpas⟩)
  | succ n ih =>
    rw [groupSearch]
    cases hin : inGroup keyOf width table k (groupAt (2 ^ m) width (home k) i) with
    | some j =>
      obtain ⟨hj, hkey⟩ := inGroup_some hin
      exact .inl ⟨_, rfl, groupAt_lt _ _ hj, hkey⟩
    | none =>
      have hno := fun l hl => @inGroup_none _ _ _ keyOf width table k _ l hin hl
      cases hemp : emptyIn keyOf width table (groupAt (2 ^ m) width (home k) i) with
      | some j =>
        obtain ⟨hj, hnone, hused⟩ := emptyIn_some hemp
        have hcell := @cellAt_group κ m width home hwid k i j hj
        refine .inr (.inl ⟨i * width + j, by rw [hcell], ?_, by rwa [hcell],
          hpas.group hwid hno hj.le hused⟩)
        calc i * width + j < i * width + width := Nat.add_lt_add_left hj _
          _ = (i + 1) * width := by rw [add_mul, one_mul]
          _ ≤ (i + (n + 1)) * width := Nat.mul_le_mul_right _ (by omega)
      | none =>
        have hnext : Passed keyOf (cellAt (2 ^ m) width home) table k ((i + 1) * width) := by
          rw [add_mul, one_mul]
          exact hpas.group hwid hno le_rfl fun l hl => emptyIn_none hemp hl
        have hcount : i + 1 + n = i + (n + 1) := by omega
        rw [← hcount]
        exact ih (i + 1) hnext

/-- **A search by groups ends where a search by cells ends.** -/
theorem groupSearch_eq_find {m : Nat} (hwid : 0 < width)
    (hprob : Probed keyOf (cellAt (2 ^ m) width home) (2 ^ m * width) table) (k : κ) :
    groupSearch keyOf (2 ^ m) width home table k 0 (2 ^ m) =
      find keyOf (cellAt (2 ^ m) width home) (2 ^ m * width) table k := by
  have hcyc : FullCycle (cellAt (2 ^ m) width home) (2 ^ m * width) := cellAt_fullCycle hwid
  have hstart : Passed keyOf (cellAt (2 ^ m) width home) table k (0 * width) := by
    intro l hl
    rw [zero_mul] at hl
    exact absurd hl (Nat.not_lt_zero l)
  have hcas := groupSearch_cases hwid 0 (2 ^ m) hstart
  rw [zero_add] at hcas
  rcases find_cases table k hcyc with ⟨c, heq, hc⟩ | ⟨i, hi, heq, hnone, hpas⟩ | ⟨heq, hall⟩
  · rcases hcas with ⟨c', heq', hlt, hkey⟩ | ⟨j, heq', _, hnone, hpas⟩ | ⟨heq', hpas⟩
    · rw [heq, heq', hprob.unique ⟨hlt, hkey⟩ hc]
    · exact (hprob.absent_of_free hnone hpas c hc).elim
    · obtain ⟨hlt, hkey⟩ := hc
      obtain ⟨i, hi, rfl⟩ := hcyc.reach k c hlt
      obtain ⟨k', hk', hne⟩ := hpas i hi
      exact absurd (Option.some.inj (hk'.symm.trans hkey)) hne
  · rcases hcas with ⟨c', heq', hlt, hkey⟩ | ⟨j, heq', -, hnone', hpas'⟩ | ⟨heq', hpas'⟩
    · exact absurd ⟨hlt, hkey⟩ (hprob.absent_of_free hnone hpas c')
    · rw [heq, heq']
      rcases lt_trichotomy i j with hij | rfl | hij
      · obtain ⟨k', hk', -⟩ := hpas' i hij
        rw [hnone] at hk'
        cases hk'
      · rfl
      · obtain ⟨k', hk', -⟩ := hpas j hij
        rw [hnone'] at hk'
        cases hk'
    · obtain ⟨k', hk', -⟩ := hpas' i hi
      rw [hnone] at hk'
      cases hk'
  · rcases hcas with ⟨c', heq', hlt, hkey⟩ | ⟨j, heq', -, hnone', -⟩ | ⟨heq', -⟩
    · obtain ⟨k', hk', hne⟩ := hall c' hlt
      exact absurd (Option.some.inj (hk'.symm.trans hkey)) hne
    · obtain ⟨k', hk', -⟩ := hall _ (hcyc.lt k j)
      rw [hnone'] at hk'
      cases hk'
    · rw [heq, heq']

/-- The search for an empty cell from group number `i` on, with `n` groups left. -/
def emptySearch (keyOf : σ → Option κ) (groups width home : Nat) (table : Nat → σ) :
    Nat → Nat → Option Nat
  | _, 0 => none
  | i, n + 1 =>
    match emptyIn keyOf width table (groupAt groups width home i) with
    | some j => some (groupAt groups width home i + j)
    | none => emptySearch keyOf groups width home table (i + 1) n

theorem groupSearch_of_absent {m : Nat} (habs : ∀ c, c < 2 ^ m * width → keyOf (table c) ≠ some k)
    (i n : Nat) :
    groupSearch keyOf (2 ^ m) width home table k i n =
      match emptySearch keyOf (2 ^ m) width (home k) table i n with
      | some c => .free c
      | none => .full := by
  induction n generalizing i with
  | zero => rfl
  | succ n ih =>
    have hin : inGroup keyOf width table k (groupAt (2 ^ m) width (home k) i) = none := by
      cases heq : inGroup keyOf width table k (groupAt (2 ^ m) width (home k) i) with
      | none => rfl
      | some j =>
        obtain ⟨hj, hkey⟩ := inGroup_some heq
        exact absurd hkey (habs _ (groupAt_lt _ _ hj))
    rw [groupSearch, emptySearch, hin]
    cases emptyIn keyOf width table (groupAt (2 ^ m) width (home k) i) with
    | some j => rfl
    | none => exact ih (i + 1)

end OpenAddressing
end Crucible
