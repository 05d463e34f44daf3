import Crucible.DetectorHistory
import Crucible.LinearProbing
import Crucible.PrefixHash

/-! # The window table of the detector

The table stores one entry for each fingerprint of the windows of the history
(`windowEntries`), with the newest start, and a link leads from each window to the newest
earlier one with its fingerprint and skips none (`Link`).  The specifications here say when an
exchange, a removal and a rebuild end and what they leave.
-/
namespace Crucible
namespace IterationDetector
open OpenAddressing

/-! ### Fingerprints -/

theorem powerLoop_eq (bits : Nat) {result factor exponent : Nat} (hres : result < 2 ^ 64)
    (hexpo : exponent < 2 ^ bits) :
    powerLoop bits result factor exponent = wrap64 (result * factor ^ exponent) := by
  induction bits generalizing result factor exponent with
  | zero =>
    obtain rfl : exponent = 0 := Nat.lt_one_iff.mp hexpo
    rw [powerLoop, pow_zero, mul_one, wrap64_of_lt hres]
  | succ bits ih =>
    unfold powerLoop
    split
    · rename_i hzero
      rw [hzero, pow_zero, mul_one, wrap64_of_lt hres]
    · have hhalf : exponent / 2 < 2 ^ bits := by
        omega
      have hsquare : (wrap64 (factor * factor)) ^ (exponent / 2) ≡
          factor ^ (2 * (exponent / 2)) [MOD 2 ^ 64] := by
        rw [Nat.pow_mul, Nat.pow_two]
        exact (Nat.mod_modEq _ _).pow _
      have hexp := Nat.div_add_mod exponent 2
      split
      · rename_i hodd
        rw [ih (wrap64_lt _) hhalf]
        refine Nat.ModEq.trans ((Nat.mod_modEq _ _).mul hsquare) ?_
        rw [hodd] at hexp
        rw [mul_assoc, ← Nat.pow_succ', Nat.succ_eq_add_one, hexp]
      · rw [ih hres hhalf]
        refine Nat.ModEq.trans (hsquare.mul_left result) ?_
        have hzero : exponent % 2 = 0 := by omega
        rw [hzero, add_zero] at hexp
        rw [hexp]

theorem powerOfBase_eq {exponent : Nat} (h : exponent < 2 ^ 64) :
    powerOfBase exponent = wrap64 (polyBase ^ exponent) := by
  rw [powerOfBase, powerLoop_eq 64 (by decide) h, one_mul]

/-- The fingerprint of the window that starts at `start`. -/
def print (key : Nat → Nat) (start : Nat) : Nat :=
  stretchHash polyBase (2 ^ 64) key start detectorK

/-- The ring holds the prefix fingerprints of the keys. -/
def Prints (d : IterationDetector) (key : Nat → Nat) : Prop :=
  Ring.Holds d.historyMask d.prefixPolys (fun p => prefixHash polyBase (2 ^ 64) key (p + 1))
    (d.base - 1) d.pos

section Prints
variable {d : IterationDetector} {key key' : Nat → Nat}

theorem print_congr {s t : Nat} (h : ∀ i, i < detectorK → key (s + i) = key' (t + i)) :
    print key s = print key' t :=
  prefixHash_congr h

theorem Prints.before (h : d.Prints key) {index : Nat} (hbase : d.base ≤ index)
    (hpos : index ≤ d.pos) : d.prefixPolyBefore index = prefixHash polyBase (2 ^ 64) key index := by
  unfold prefixPolyBefore
  split
  · rename_i hzero
    rw [hzero]
    rfl
  · refine (h (index - 1) (by omega) (by omega)).trans ?_
    exact congrArg (prefixHash _ _ key) (Nat.sub_add_cancel (by omega))

theorem Prints.polyBetween (h : d.Prints key) {start length : Nat} (hbase : d.base ≤ start)
    (hpos : start + length ≤ d.pos) (hlen : length < 2 ^ 64) :
    d.polyBetween start length = stretchHash polyBase (2 ^ 64) key start length := by
  have hstr : stretchHash polyBase (2 ^ 64) key start length < 2 ^ 64 :=
    prefixHash_lt (by decide) ..
  rw [IterationDetector.polyBetween, h.before (by omega) hpos, h.before hbase (by omega),
    powerOfBase_eq hlen]
  have hadd := prefixHash_add polyBase (2 ^ 64) key start length
  have hlow : wrap64 (prefixHash polyBase (2 ^ 64) key start * wrap64 (polyBase ^ length)) ≡
      prefixHash polyBase (2 ^ 64) key start * polyBase ^ length [MOD 2 ^ 64] :=
    (Nat.mod_modEq _ _).trans ((Nat.mod_modEq _ _).mul_left _)
  have hsub : ∀ {a b c : Nat}, a ≡ b + c [MOD 2 ^ 64] → c < 2 ^ 64 → a < 2 ^ 64 → b < 2 ^ 64 →
      sub64 a b = c := by
    intro a b c habc hc ha hb
    unfold Nat.ModEq at habc
    unfold sub64 wrap64
    omega
  exact hsub (hadd.trans (hlow.symm.add_right _)) hstr (prefixHash_lt (by decide) ..)
    (wrap64_lt _)

theorem Prints.windowFingerprint (h : d.Prints key) {start : Nat} (hbase : d.base ≤ start)
    (hpos : start + detectorK ≤ d.pos) : d.windowFingerprint start = print key start :=
  h.polyBetween hbase hpos (by decide)

end Prints

/-! ### The entries and the links -/

def slotKey (slot : TableSlot) : Option Nat :=
  if slot.startPlusOne = 0 then none else some slot.fingerprint

/-- The entries for the windows that start in `[lo, hi)`: each fingerprint has its newest window. -/
def windowEntries (fp : Nat → Nat) (lo hi : Nat) : Set TableSlot :=
  {e | ∃ t, e = ⟨t + 1, fp t⟩ ∧ lo ≤ t ∧ t < hi ∧ ∀ t', t < t' → t' < hi → fp t' ≠ fp t}

/-- A link of the window at `s` skips no window of `[lo, s)` with its fingerprint. -/
structure Link (fp : Nat → Nat) (lo s link : Nat) : Prop where
  skips : ∀ t, lo ≤ t → t < s → link ≤ t → fp t ≠ fp s
  earlier : link ≠ 0 → link ≤ s ∧ fp (link - 1) = fp s

section Entries
variable {fp : Nat → Nat} {lo hi : Nat}

theorem Link.le {s link : Nat} (h : Link fp lo s link) : link ≤ s := by
  by_cases hzero : link = 0
  · rw [hzero]
    exact zero_le
  · exact (h.earlier hzero).1

theorem Link.mono {s link : Nat} (h : Link fp lo s link) {lo' : Nat} (hlo : lo ≤ lo') :
    Link fp lo' s link :=
  ⟨fun t ht => h.skips t (hlo.trans ht), h.earlier⟩

theorem windowEntries_empty (fp : Nat → Nat) (h : hi ≤ lo) : windowEntries fp lo hi = ∅ := by
  refine Set.eq_empty_of_forall_notMem fun e he => ?_
  obtain ⟨t, -, hlo, hhi, -⟩ := he
  omega

theorem windowEntries_succ (fp : Nat → Nat) (h : lo ≤ hi) :
    {e | e = ⟨hi + 1, fp hi⟩ ∨ (e ∈ windowEntries fp lo hi ∧ slotKey e ≠ some (fp hi))} =
      windowEntries fp lo (hi + 1) := by
  ext e
  constructor
  · rintro (rfl | ⟨⟨t, rfl, hlo, hhi, hnew⟩, hkey⟩)
    · exact ⟨hi, rfl, h, lt_add_one hi, fun t' _ _ => by omega⟩
    · refine ⟨t, rfl, hlo, Nat.lt_succ_of_lt hhi, fun t' ht ht' heq => ?_⟩
      rcases Nat.lt_succ_iff_lt_or_eq.mp ht' with hlt | rfl
      · exact hnew t' ht hlt heq
      · exact hkey (congrArg some heq.symm)
  · rintro ⟨t, rfl, hlo, hhi, hnew⟩
    rcases Nat.lt_succ_iff_lt_or_eq.mp hhi with hlt | rfl
    · refine .inr ⟨⟨t, rfl, hlo, hlt, fun t' ht ht' => hnew t' ht (Nat.lt_succ_of_lt ht')⟩, ?_⟩
      exact fun hkey => hnew hi hlt (lt_add_one hi) (Option.some.inj hkey).symm
    · exact .inl rfl

theorem windowEntries_forget (fp : Nat → Nat) (lo hi : Nat) :
    {e | e ∈ windowEntries fp lo hi ∧ e ≠ ⟨lo + 1, fp lo⟩} = windowEntries fp (lo + 1) hi := by
  ext e
  constructor
  · rintro ⟨⟨t, rfl, hlo, hhi, hnew⟩, hne⟩
    refine ⟨t, rfl, Nat.lt_of_le_of_ne hlo ?_, hhi, hnew⟩
    rintro rfl
    exact hne rfl
  · rintro ⟨t, rfl, hlo, hhi, hnew⟩
    refine ⟨⟨t, rfl, Nat.le_of_succ_le hlo, hhi, hnew⟩, fun heq => ?_⟩
    have hstart := congrArg TableSlot.startPlusOne heq
    change t + 1 = lo + 1 at hstart
    omega

theorem exists_entry (fp : Nat → Nat) {t : Nat} (hlo : lo ≤ t) (hhi : t < hi) :
    ∃ newest, ⟨newest + 1, fp t⟩ ∈ windowEntries fp lo hi := by
  induction hi with
  | zero => cases hhi
  | succ hi ih =>
    by_cases hsame : fp hi = fp t
    · rw [← hsame]
      exact ⟨hi, hi, rfl, by omega, lt_add_one hi, fun t' _ _ => by omega⟩
    · have hlt : t < hi := Nat.lt_of_le_of_ne (Nat.le_of_lt_succ hhi) fun heq => hsame (heq ▸ rfl)
      obtain ⟨newest, hent⟩ := ih hlt
      rw [← windowEntries_succ fp (by omega)]
      exact ⟨newest, .inr ⟨hent, fun hkey => hsame (Option.some.inj hkey).symm⟩⟩

theorem link_of_entry {link : Nat}
    (h : (link = 0 ∧ ∀ e, e ∈ windowEntries fp lo hi → slotKey e ≠ some (fp hi)) ∨
      ⟨link, fp hi⟩ ∈ windowEntries fp lo hi) : Link fp lo hi link := by
  rcases h with ⟨rfl, hnone⟩ | ⟨t, heq, hlo, hhi, hnew⟩
  · refine ⟨fun t hlo hhi _ heq => ?_, fun hne => absurd rfl hne⟩
    obtain ⟨newest, hent⟩ := exists_entry fp hlo hhi
    refine hnone _ hent ?_
    rw [slotKey, if_neg (Nat.succ_ne_zero _), heq]
  · obtain ⟨rfl, hfp⟩ := TableSlot.mk.inj heq
    refine ⟨fun t' _ hlt hle heq' => hnew t' hle hlt (heq'.trans hfp), fun _ => ⟨hhi, ?_⟩⟩
    exact hfp.symm

end Entries

/-! ### Probing -/

/-- The table stores `entries`. -/
structure Indexed (d : IterationDetector) (entries : Set TableSlot) : Prop where
  pow : PowMask d.tableMask
  lt : d.tableMask < 2 ^ 64
  stores : Stores slotKey d.homeSlot (d.tableMask + 1) d.table entries

def HasRoom (d : IterationDetector) : Prop :=
  ∃ c, c < d.tableMask + 1 ∧ slotKey (d.table c) = none

/-- A probe for the fingerprint ends: a slot is unused or has it. -/
def Answers (d : IterationDetector) (fingerprint : Nat) : Prop :=
  ∃ c, c < d.tableMask + 1 ∧ (slotKey (d.table c) = none ∨ slotKey (d.table c) = some fingerprint)

section Probe
variable {d d' : IterationDetector} {entries : Set TableSlot} {fingerprint start : Nat}

theorem homeSlot_lt (hpow : PowMask d.tableMask) (fingerprint : Nat) :
    d.homeSlot fingerprint < d.tableMask + 1 := by
  rw [homeSlot, and_powMask hpow]
  exact Nat.mod_lt _ (Nat.succ_pos _)

theorem slotKey_of_ne {slot : TableSlot} (h : slot.startPlusOne ≠ 0) :
    slotKey slot = some slot.fingerprint := if_neg h

theorem findSlot_eq (hpow : PowMask d.tableMask) (fingerprint n i : Nat) :
    d.findSlot fingerprint n (linear d.homeSlot (d.tableMask + 1) fingerprint i) =
      match OpenAddressing.search slotKey
    (linear d.homeSlot (d.tableMask + 1)) d.table fingerprint i n with
      | .hit c => .ok c
      | .free c => .ok c
      | .full => .error .endless := by
  induction n generalizing i with
  | zero => rfl
  | succ n ih =>
    have hnext : (linear d.homeSlot (d.tableMask + 1) fingerprint i + 1) &&& d.tableMask =
        linear d.homeSlot (d.tableMask + 1) fingerprint (i + 1) := by
      rw [and_powMask hpow, linear, linear, Nat.mod_add_mod, add_assoc]
    unfold findSlot OpenAddressing.search
    by_cases hemp : (d.table (linear d.homeSlot (d.tableMask + 1) fingerprint i)).startPlusOne = 0
    · rw [if_pos (.inl hemp), slotKey, if_pos hemp]
    · rw [slotKey_of_ne hemp]
      by_cases hsame : (d.table (linear d.homeSlot (d.tableMask + 1) fingerprint i)).fingerprint =
          fingerprint
      · rw [if_pos (.inr hsame)]
        simp only [if_pos hsame]
      · rw [if_neg fun hor => hor.elim hemp hsame]
        simp only [if_neg hsame]
        rw [hnext, ih]

/-- **How a probe ends**: at the slot of its fingerprint, at an unused slot, or never. -/
theorem probe_cases (hpow : PowMask d.tableMask) (fingerprint : Nat) : (∃ i, i < d.tableMask + 1 ∧
      d.probe fingerprint = .ok (linear d.homeSlot (d.tableMask + 1) fingerprint i) ∧
      Passed slotKey (linear d.homeSlot (d.tableMask + 1)) d.table fingerprint i ∧
      (slotKey (d.table (linear d.homeSlot (d.tableMask + 1) fingerprint i)) = none ∨
        slotKey (d.table (linear d.homeSlot (d.tableMask + 1) fingerprint i)) = some fingerprint)) ∨
    (d.probe fingerprint = .error .endless ∧ ∀ c, c < d.tableMask + 1 → ∃ other, slotKey
    (d.table c) = some other ∧ other ≠ fingerprint) := by
  have hprobe : d.probe fingerprint = d.findSlot fingerprint (d.tableMask + 1)
      (linear d.homeSlot (d.tableMask + 1) fingerprint 0) := by
    rw [linear_zero (homeSlot_lt hpow fingerprint)]
    rfl
  have hcyc : FullCycle (linear d.homeSlot (d.tableMask + 1)) (d.tableMask + 1) :=
    linear_fullCycle (homeSlot_lt hpow)
  have hstart : Passed slotKey (linear d.homeSlot (d.tableMask + 1)) d.table fingerprint 0 :=
    fun _ hj => absurd hj (Nat.not_lt_zero _)
  rw [hprobe, findSlot_eq hpow]
  rcases search_cases 0 (d.tableMask + 1) hstart with
    ⟨j, -, hj, hpas, hkey, heq⟩ | ⟨j, -, hj, hpas, hkey, heq⟩ | ⟨hpas, heq⟩
  · rw [heq]
    exact .inl ⟨j, by omega, rfl, hpas, .inr hkey⟩
  · rw [heq]
    exact .inl ⟨j, by omega, rfl, hpas, .inl hkey⟩
  · rw [heq]
    refine .inr ⟨rfl, fun c hc => ?_⟩
    obtain ⟨i, hi, rfl⟩ := hcyc.reach fingerprint c hc
    exact hpas i (by omega)

theorem HasRoom.answers (h : d.HasRoom) (fingerprint : Nat) : d.Answers fingerprint := by
  obtain ⟨c, hc, hnone⟩ := h
  exact ⟨c, hc, .inl hnone⟩

theorem not_answers (hfull : ∀ c, c < d.tableMask + 1 → ∃ other, slotKey (d.table c) = some other ∧
      other ≠ fingerprint) : ¬ d.Answers fingerprint := by
  rintro ⟨c, hc, hor⟩
  obtain ⟨other, hoth, hne⟩ := hfull c hc
  rw [hoth] at hor
  rcases hor with hnone | hsome
  · cases hnone
  · exact hne (Option.some.inj hsome)

theorem probe_endless (hpow : PowMask d.tableMask)
    (hfull : ∀ c, c < d.tableMask + 1 → ∃ other, slotKey (d.table c) = some other ∧
      other ≠ fingerprint) : d.probe fingerprint = .error .endless := by
  rcases probe_cases hpow fingerprint with ⟨i, -, -, -, hor⟩ | ⟨hend, -⟩
  · exact absurd ⟨_, Nat.mod_lt _ (Nat.succ_pos d.tableMask), hor⟩ (not_answers hfull)
  · exact hend

/-- **An exchange** puts the window in the place of its fingerprint.  It never ends only in
a table full of other fingerprints. -/
theorem tableExchange_cases (h : d.Indexed entries) (fingerprint start : Nat) :
    (d.tableExchange fingerprint start = .error .endless ∧ ¬ d.Answers fingerprint) ∨
    ∃ table used link,
      d.tableExchange fingerprint start = .ok ({ d with table, tableUsed := used }, link) ∧
      ({ d with table, tableUsed := used } : IterationDetector).Indexed
        {e | e = ⟨start + 1, fingerprint⟩ ∨ (e ∈ entries ∧ slotKey e ≠ some fingerprint)} ∧
      ((link = 0 ∧ ∀ e, e ∈ entries → slotKey e ≠ some fingerprint) ∨
        ⟨link, fingerprint⟩ ∈ entries) := by
  rcases probe_cases h.pow fingerprint with ⟨i, hi, hprobe, hpas, hcell⟩ | ⟨hend, hfull⟩
  · refine .inr ?_
    have hstor := h.stores.store hi hpas hcell
      (s := ⟨start + 1, fingerprint⟩) (slotKey_of_ne (Nat.succ_ne_zero start))
    have hlt : linear d.homeSlot (d.tableMask + 1) fingerprint i < d.tableMask + 1 :=
      Nat.mod_lt _ (Nat.succ_pos _)
    have habs := fun hnone => h.stores.probed.absent_of_free hnone hpas
    generalize linear d.homeSlot (d.tableMask + 1) fingerprint i = index
      at hprobe hcell hstor hlt habs
    by_cases hzero : (d.table index).startPlusOne = 0
    · refine ⟨_, d.tableUsed + 1, 0, (bind_of_ok hprobe).trans (if_pos hzero),
        ⟨h.pow, h.lt, hstor⟩, .inl ⟨rfl, fun e he hkey => ?_⟩⟩
      -- the search ended at an unused slot, so the fingerprint has no entry
      obtain ⟨-, c, hc, rfl⟩ := (h.stores.mem_iff e).mp he
      exact habs (if_pos hzero) c ⟨hc, hkey⟩
    · refine ⟨_, d.tableUsed, (d.table index).startPlusOne,
        (bind_of_ok hprobe).trans (if_neg hzero), ⟨h.pow, h.lt, hstor⟩, .inr ?_⟩
      have hkey := slotKey_of_ne hzero
      have hsome := hcell.resolve_left (by rw [hkey]; exact nofun)
      have hsame : (d.table index).fingerprint = fingerprint :=
        Option.some.inj (hkey.symm.trans hsome)
      rw [← hsame]
      refine (h.stores.mem_iff _).mpr ⟨?_, index, hlt, rfl⟩
      rw [slotKey_of_ne hzero]
      exact nofun
  · exact .inl ⟨by rw [tableExchange, hend]; rfl, not_answers hfull⟩

/-! ### Removal -/

variable {mask hole next n : Nat}

theorem powMask_dvd (hpow : PowMask mask) (hlt : mask < 2 ^ 64) : mask + 1 ∣ 2 ^ 64 := by
  obtain ⟨k, hk⟩ := hpow
  rw [hk]
  refine Nat.pow_dvd_pow 2 ?_
  by_contra hgt
  have hpow : 2 ^ 65 ≤ 2 ^ k := Nat.pow_le_pow_right (by decide) (by omega)
  omega

theorem add_sub64 (hpow : PowMask mask) (hlt : mask < 2 ^ 64) (a b : Nat) :
    b + sub64 a b ≡ a [MOD mask + 1] := by
  have hword : b + sub64 a b ≡ a [MOD 2 ^ 64] := by
    unfold Nat.ModEq sub64 wrap64
    omega
  exact hword.of_dvd (powMask_dvd hpow hlt)

theorem sub64_and {a b : Nat} (hpow : PowMask mask) (hlt : mask < 2 ^ 64)
    (ha : a < mask + 1) (hb : b < mask + 1) : sub64 a b &&& mask = ahead (mask + 1) b a := by
  rw [and_powMask hpow]
  refine Nat.mod_eq_of_modEq (.add_left_cancel' b ((add_sub64 hpow hlt a b).trans ?_))
    (ahead_lt hb ha)
  rw [Nat.ModEq, add_ahead hb ha, Nat.mod_eq_of_lt ha]

/-- The test of the loop: the home is after the hole and not after the next slot. -/
theorem homeAfterHole_iff {home : Nat} (hpow : PowMask mask) (hlt : mask < 2 ^ 64)
    (hhome : home < mask + 1) (hhole : hole < mask + 1) (hnext : next < mask + 1) :
    sub64 (sub64 home hole) 1 &&& mask < sub64 next hole &&& mask ↔ 0 < ahead (mask + 1) hole home ∧
        ahead (mask + 1) hole home ≤ ahead (mask + 1) hole next := by
  have hway := sub64_and hpow hlt hhome hhole
  have hr := ahead_lt hhole hhome
  have hfar := ahead_lt hhole hnext
  rw [sub64_and hpow hlt hnext hhole]
  generalize ahead (mask + 1) hole home = r at hway hr
  rw [and_powMask hpow] at hway ⊢
  -- one step back from `r`, around the table when `r` is zero
  have hback : sub64 (sub64 home hole) 1 % (mask + 1) = if r = 0 then mask else r - 1 := by
    refine Nat.mod_eq_of_modEq (.add_left_cancel' 1 ((add_sub64 hpow hlt _ 1).trans ?_)) ?_
    · rw [Nat.ModEq, hway]
      split
      · rw [‹r = 0›, add_comm, Nat.mod_self]
      · rw [Nat.add_sub_cancel' (by omega), Nat.mod_eq_of_lt hr]
    · split <;> omega
  rw [hback]
  split <;> omega

variable {table : Nat → TableSlot}

/-- **What the loop that closes a hole leaves**: the kept entries. -/
theorem closeHole_ok (hpow : PowMask d.tableMask) (hlt : d.tableMask < 2 ^ 64)
    {kept : Set TableSlot} {table' : Nat → TableSlot}
    (h : Gap slotKey d.homeSlot (d.tableMask + 1) kept table hole next)
    (hused : slotKey (table hole) ≠ none) (hclose : d.closeHole n table hole next = .ok table') :
    Stores slotKey d.homeSlot (d.tableMask + 1) table' kept := by
  induction n generalizing table hole next with
  | zero => cases hclose
  | succ n ih =>
    have hhome := homeSlot_lt hpow
    have hnext : (next + 1) &&& d.tableMask = (next + 1) % (d.tableMask + 1) :=
      and_powMask hpow _
    unfold IterationDetector.closeHole at hclose
    rw [hnext] at hclose
    dsimp only at hclose
    split at hclose
    · rename_i hzero
      cases hclose
      have hfree : slotKey (table ((next + 1) % (d.tableMask + 1))) = none := if_pos hzero
      have hneh : (next + 1) % (d.tableMask + 1) ≠ hole := fun heq => hused (heq ▸ hfree)
      exact h.finish hhome hneh hfree rfl
    · rename_i hslot
      have hkey := slotKey_of_ne hslot
      have hiff := homeAfterHole_iff hpow hlt
        (hhome (table ((next + 1) % (d.tableMask + 1))).fingerprint) h.hole_lt h.succ_lt
      by_cases hneh : (next + 1) % (d.tableMask + 1) = hole
      · -- the loop has come around to the hole, and starts over
        have hzero := ahead_self (d.tableMask + 1) hole
        have hback : ahead (d.tableMask + 1) hole ((next + 1) % (d.tableMask + 1)) = 0 := by
          rw [hneh, hzero]
        rw [if_neg (mt hiff.mp (by omega)), hneh, Function.update_eq_self] at hclose
        refine ih ⟨h.hole_lt, h.hole_lt, h.unique, h.used, fun x _ hpos hle => ?_,
          fun c k _ hpos hle => ?_, h.mem_iff⟩ hused hclose
        · omega
        · omega
      · split at hclose
        · rename_i haft
          obtain ⟨hpos, hle⟩ := hiff.mp haft
          exact ih (h.pass hneh hkey hpos hle) hused hclose
        · refine ih (h.move hhome hneh hkey (by omega)) ?_ hclose
          rw [Function.update_of_ne hneh, hkey]
          exact nofun

/-- **The loop that closes a hole ends** when an unused slot lies ahead of it. -/
theorem closeHole_total (hpow : PowMask d.tableMask)
    {free : Nat} (hnext : next < d.tableMask + 1) (hfree : slotKey (table free) = none)
    (hfreelt : free < d.tableMask + 1) (hhole : free ≠ hole) (hne : free ≠ next)
    (hfuel : ahead (d.tableMask + 1) next free ≤ n) :
    ∃ table', d.closeHole n table hole next = .ok table' := by
  induction n generalizing table hole next with
  | zero => exact absurd (ahead_eq_zero hnext (Nat.le_zero.mp hfuel)) hne
  | succ n ih =>
    have hmask : (next + 1) &&& d.tableMask = (next + 1) % (d.tableMask + 1) := and_powMask hpow _
    have hlt : (next + 1) % (d.tableMask + 1) < d.tableMask + 1 := Nat.mod_lt _ (Nat.succ_pos _)
    have hstep : ahead (d.tableMask + 1) ((next + 1) % (d.tableMask + 1)) free ≤ n := by
      rw [succ_mod hnext]
      unfold ahead at hfuel ⊢
      split_ifs at hfuel ⊢ <;> omega
    unfold IterationDetector.closeHole
    rw [hmask]
    dsimp only
    split
    · exact ⟨_, rfl⟩
    · rename_i hslot
      have hoth : free ≠ (next + 1) % (d.tableMask + 1) := by
        rintro rfl
        rw [slotKey_of_ne hslot] at hfree
        cases hfree
      split
      · exact ih hlt hfree hhole hoth hstep
      · exact ih hlt (by rwa [Function.update_of_ne hhole]) hoth hoth hstep

theorem closeHole_fault {e : Fault}
    (hclose : d.closeHole n table hole next = .error e) : e = .endless := by
  induction n generalizing table hole next with
  | zero => exact (Except.error.inj hclose).symm
  | succ n ih =>
    unfold IterationDetector.closeHole at hclose
    dsimp only at hclose
    split at hclose
    · cases hclose
    · split at hclose
      · exact ih hclose
      · exact ih hclose

/-- **A removal** drops the entry of its window, if there is one.  It never ends only in a
table without an unused slot. -/
theorem tableRemoveNewest_cases (h : d.Indexed entries) (fingerprint start : Nat) :
    (d.tableRemoveNewest fingerprint start = .error .endless ∧ ¬ d.HasRoom) ∨
    ∃ table used, d.tableRemoveNewest fingerprint start = .ok { d with table, tableUsed := used } ∧
      ({ d with table, tableUsed := used } : IterationDetector).Indexed
        {e | e ∈ entries ∧ e ≠ ⟨start + 1, fingerprint⟩} := by
  rcases probe_cases h.pow fingerprint with ⟨i, hi, hprobe, hpas, hcell⟩ | ⟨hend, hfull⟩
  · have hlt : linear d.homeSlot (d.tableMask + 1) fingerprint i < d.tableMask + 1 :=
      Nat.mod_lt _ (Nat.succ_pos _)
    have habs := fun hnone => h.stores.probed.absent_of_free hnone hpas
    generalize linear d.homeSlot (d.tableMask + 1) fingerprint i = hole at hprobe hcell hlt habs
    by_cases hnew : (d.table hole).startPlusOne = start + 1
    · have hused : (d.table hole).startPlusOne ≠ 0 := by
        rw [hnew]
        exact Nat.succ_ne_zero start
      have hkey := slotKey_of_ne hused
      have hkeyne : slotKey (d.table hole) ≠ none := by
        rw [hkey]
        exact nofun
      have hsome := hcell.resolve_left hkeyne
      have hgap := h.stores.gap (homeSlot_lt h.pow) ⟨hlt, hsome⟩
      have hrem : d.tableRemoveNewest fingerprint start = (do
          let table ← d.closeHole (d.tableMask + 1) d.table hole hole
          .ok { d with table, tableUsed := d.tableUsed - 1 }) :=
        (bind_of_ok hprobe).trans (if_neg (not_not_intro hnew))
      rw [hrem]
      cases hclose : d.closeHole (d.tableMask + 1) d.table hole hole with
      | error e =>
        obtain rfl := closeHole_fault hclose
        refine .inl ⟨rfl, ?_⟩
        rintro ⟨free, hfree, hnone⟩
        have hne : free ≠ hole := fun heq => hkeyne (heq ▸ hnone)
        obtain ⟨table', htot⟩ := closeHole_total h.pow hlt hnone hfree hne hne
          (le_of_lt (ahead_lt hlt hfree))
        rw [hclose] at htot
        cases htot
      | ok table =>
        refine .inr ⟨table, d.tableUsed - 1, rfl, h.pow, h.lt, ?_⟩
        have hstor := closeHole_ok h.pow h.lt hgap hkeyne hclose
        -- the entry of the fingerprint is the one of this window
        have hent : d.table hole = ⟨start + 1, fingerprint⟩ := by
          rw [← hnew, ← Option.some.inj (hkey.symm.trans hsome)]
        have hmem : d.table hole ∈ entries := (h.stores.mem_iff _).mpr ⟨hkeyne, hole, hlt, rfl⟩
        have hset : {e | e ∈ entries ∧ slotKey e ≠ some fingerprint} =
            {e | e ∈ entries ∧ e ≠ ⟨start + 1, fingerprint⟩} := by
          ext e
          refine and_congr_right fun he => not_congr ⟨fun hk => ?_, fun hk => ?_⟩
          · rw [← hent]
            exact h.stores.entry_unique he hmem (hk.trans hsome.symm)
          · rw [hk, ← hent]
            exact hsome
        rw [← hset]
        exact hstor
    · refine .inr ⟨d.table, d.tableUsed, (bind_of_ok hprobe).trans (if_pos hnew), ?_⟩
      -- no entry is the one of this window
      have hset : {e | e ∈ entries ∧ e ≠ ⟨start + 1, fingerprint⟩} = entries := by
        ext e
        refine ⟨And.left, fun he => ⟨he, ?_⟩⟩
        rintro rfl
        obtain ⟨-, c, hc, heq⟩ := (h.stores.mem_iff _).mp he
        have hkey : slotKey (d.table c) = some fingerprint := by
          rw [heq]
          exact slotKey_of_ne (Nat.succ_ne_zero start)
        rcases hcell with hnone | hsome
        · exact habs hnone c ⟨hc, hkey⟩
        · have hsame := h.stores.probed.unique ⟨hc, hkey⟩ ⟨hlt, hsome⟩
          exact hnew (by rw [← hsame, heq])
      rw [hset]
      exact ⟨h.pow, h.lt, h.stores⟩
  · exact .inl ⟨by rw [tableRemoveNewest, hend]; rfl, fun h => not_answers hfull (h.answers _)⟩

end Probe

end IterationDetector
end Crucible
